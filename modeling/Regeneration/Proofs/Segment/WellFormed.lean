import Mathlib.Data.List.Perm.Basic
import Regeneration.Segment.Lookup
import Regeneration.Proofs.Merge.Order

/-!
# Well-formed trees

In a well-formed tree the children of every container have distinct ids, and
every synchronized segment emits each of its merged children once. Former regions
are well formed as regions of their own. Nothing but well-formed trees can be
built: child lists refuse a taken id, a requested order is settled, and an edit
changes no id.

Well-formedness is decidable (`isWellFormed_iff`).

Main statements: `wellFormed_synchronize`, `ofList_eq_ok` and
`WellFormed.setContent` (what is built or edited is well formed) and
`WellFormed.asRegion` (so is a list region in emitted order).
-/

set_option autoImplicit false

namespace Regeneration.Segment

/-- Distinct ids among siblings and complete emitted orders, at every level and
on both sides of a synchronized segment. -/
inductive WellFormed : Segment → Prop where
  | literal (id content : String) : WellFormed (.literal id content)
  | editable (id content : String) : WellFormed (.editable id content)
  | composite {id : String} {children : List Segment}
      (distinct : Children.Distinct children)
      (each : ∀ child ∈ children, WellFormed child) : WellFormed (.composite id children)
  | region {list : Region Segment}
      (distinct : Children.Distinct list.children)
      (each : ∀ child ∈ list.children, WellFormed child) : WellFormed (.region list)
  | synchronized {merged : Region Segment} {former : Option (Region Segment)}
      {order : List String}
      (distinct : Children.Distinct merged.children)
      (each : ∀ child ∈ merged.children, WellFormed child)
      (listed : order.Perm (Children.ids merged.children))
      (history : ∀ list, former = some list → WellFormed (.region list)) :
      WellFormed (.synchronized merged former order)

namespace WellFormed

variable {tree child : Segment}

theorem distinct (h : tree.WellFormed) : Children.Distinct tree.children := by
  cases h with
  | literal => exact List.nodup_nil
  | editable => exact List.nodup_nil
  | composite distinct => exact distinct
  | region distinct => exact distinct
  | synchronized distinct => exact distinct

theorem each (h : tree.WellFormed) (hc : child ∈ tree.children) : child.WellFormed := by
  cases h with
  | literal => cases hc
  | editable => cases hc
  | composite _ each => exact each child hc
  | region _ each => exact each child hc
  | synchronized _ each => exact each child hc

/-- A well-formed tree may stand as the former tree of a merge. -/
theorem of_some_eq (h : tree.WellFormed) : ∀ other, some tree = some other → other.WellFormed := by
  intro other e
  cases e
  exact h

theorem liveChild {id : String} (h : tree.WellFormed) (hc : tree.liveChild? id = some child) :
    child.WellFormed :=
  h.each (Keyed.mem_of_find? hc)

/-- A child is the live child of its id. -/
theorem liveChild?_eq_some_iff {id : String} (h : tree.WellFormed) :
    tree.liveChild? id = some child ↔ child ∈ tree.children ∧ child.id = id := by
  constructor
  · intro hc
    exact ⟨Keyed.mem_of_find? hc, Keyed.key_of_find? hc⟩
  · rintro ⟨hm, rfl⟩
    exact Keyed.find?_of_mem h.distinct hm

end WellFormed

/-! ## Deciding well-formedness -/

mutual
/-- Whether a tree is well formed. -/
def isWellFormed : Segment → Bool
  | .literal .. | .editable .. => true
  | .composite _ children => decide (Children.ids children).Nodup && areWellFormed children
  | .region list => isWellFormedRegion list
  | .synchronized ⟨id, policy, children⟩ former order =>
    isWellFormedRegion ⟨id, policy, children⟩ && decide (order.Perm (Children.ids children))
      && isWellFormedFormer former
termination_by structural tree => tree

/-- Whether several trees are well formed. -/
def areWellFormed : List Segment → Bool
  | [] => true
  | child :: rest => isWellFormed child && areWellFormed rest
termination_by structural trees => trees

/-- Whether a list region is well formed. -/
def isWellFormedRegion : Region Segment → Bool
  | ⟨_, _, children⟩ => decide (Children.ids children).Nodup && areWellFormed children
termination_by structural list => list

/-- Whether a former region is well formed, if there is one. -/
def isWellFormedFormer : Option (Region Segment) → Bool
  | none => true
  | some list => isWellFormedRegion list
termination_by structural former => former
end

theorem areWellFormed_iff {children : List Segment}
    (ih : ∀ child ∈ children, child.isWellFormed = true ↔ child.WellFormed) :
    areWellFormed children = true ↔ ∀ child ∈ children, child.WellFormed := by
  induction children with
  | nil => simp [areWellFormed]
  | cons child rest ihRest =>
      have hrest : areWellFormed rest = true ↔ ∀ child ∈ rest, child.WellFormed := by
        apply ihRest
        intro other hm
        exact ih other (List.mem_cons_of_mem child hm)
      rw [areWellFormed, Bool.and_eq_true, ih child List.mem_cons_self, hrest, List.forall_mem_cons]

theorem isWellFormedRegion_iff {list : Region Segment}
    (ih : ∀ child ∈ list.children, child.isWellFormed = true ↔ child.WellFormed) :
    isWellFormedRegion list = true ↔ WellFormed (.region list) := by
  rw [isWellFormedRegion, Bool.and_eq_true, decide_eq_true_iff, areWellFormed_iff ih]
  constructor
  · rintro ⟨hd, he⟩
    exact .region hd he
  · intro h
    exact ⟨h.distinct, fun _ hc => h.each hc⟩

theorem isWellFormed_iff (tree : Segment) : tree.isWellFormed = true ↔ tree.WellFormed := by
  induction tree using tree_induction with
  | literal id content => exact ⟨fun _ => .literal id content, fun _ => rfl⟩
  | editable id content => exact ⟨fun _ => .editable id content, fun _ => rfl⟩
  | composite id children ih =>
      rw [isWellFormed, Bool.and_eq_true, decide_eq_true_iff, areWellFormed_iff ih]
      constructor
      · rintro ⟨hd, he⟩
        exact .composite hd he
      · intro h
        exact ⟨h.distinct, fun _ hc => h.each hc⟩
  | region list ih => exact isWellFormedRegion_iff ih
  | synchronized merged former order ih ihFormer =>
      -- a former region is checked as a region of its own
      have hformer : isWellFormedFormer former = true
          ↔ ∀ list, former = some list → WellFormed (.region list) := by
        cases former with
        | none => exact ⟨fun _ _ h => (nomatch h), fun _ => rfl⟩
        | some list =>
            rw [isWellFormedFormer, isWellFormedRegion_iff (ihFormer list rfl)]
            constructor
            · intro h other e
              cases e
              exact h
            · intro h
              exact h list rfl
      rw [isWellFormed, Bool.and_eq_true, Bool.and_eq_true, decide_eq_true_iff, hformer,
        isWellFormedRegion_iff ih]
      constructor
      · rintro ⟨⟨hr, hp⟩, hh⟩
        exact .synchronized hr.distinct (fun _ hc => hr.each hc) hp hh
      · intro h
        cases h with
        | synchronized distinct each listed history =>
            exact ⟨⟨.region distinct each, listed⟩, history⟩

instance : DecidablePred WellFormed := fun tree => decidable_of_iff _ (isWellFormed_iff tree)

/-! ## What is built is well formed -/

/-- Any requested order gives a well-formed segment. -/
theorem wellFormed_synchronize {merged : Region Segment} {former : Option (Region Segment)}
    (hmerged : WellFormed (.region merged))
    (hformer : ∀ list, former = some list → WellFormed (.region list))
    (requested : List String) : WellFormed (synchronize merged former requested) :=
  .synchronized hmerged.distinct (fun _ hc => hmerged.each hc)
    (settleOrder_perm requested hmerged.distinct) hformer

/-- The emitted order of a merged region permutes its children. -/
theorem wellFormed_flatten {merged : Region Segment} {former : Option (Region Segment)}
    {order : List String} (h : WellFormed (.synchronized merged former order)) :
    WellFormed (.region (flatten merged order)) :=
  .region (Keyed.nodup_arrange h.distinct order)
    fun _ hc => h.each ((Keyed.arrange_perm order merged.children).subset hc)

/-- The list region that a well-formed segment stands for is well formed. -/
theorem WellFormed.asRegion {tree : Segment} {list : Region Segment} (h : tree.WellFormed)
    (hl : tree.asRegion? = some list) : WellFormed (.region list) := by
  cases tree with
  | literal => cases hl
  | editable => cases hl
  | composite => cases hl
  | region => exact Option.some.inj hl ▸ h
  | synchronized => exact Option.some.inj hl ▸ wellFormed_flatten h

theorem pushAll_eq_ok {parent : String} {children segments extended : List Segment}
    (hd : Children.Distinct children)
    (h : Children.pushAll parent children segments = .ok extended) :
    extended = children ++ segments ∧ Children.Distinct extended := by
  induction segments generalizing children with
  | nil =>
      cases h
      exact ⟨(List.append_nil _).symm, hd⟩
  | cons child rest ih =>
      rw [Children.pushAll] at h
      split at h
      · next pushed hp =>
          obtain ⟨-, rfl⟩ := Children.push_eq_ok_iff.1 hp
          obtain ⟨rfl, hdist⟩ := ih (hd.push hp) h
          exact ⟨List.append_assoc children [child] rest, hdist⟩
      · cases h

/-- A child list that is not refused holds the given segments. -/
theorem ofList_eq_ok {parent : String} {segments children : List Segment}
    (h : Children.ofList parent segments = .ok children) :
    children = segments ∧ Children.Distinct segments := by
  have hnil : Children.Distinct [] := List.nodup_nil
  obtain ⟨rfl, hd⟩ := pushAll_eq_ok hnil h
  exact ⟨rfl, hd⟩

/-- Segments with distinct ids are never refused. -/
theorem pushAll_of_distinct (parent : String) {children segments : List Segment}
    (hd : Children.Distinct (children ++ segments)) :
    Children.pushAll parent children segments = .ok (children ++ segments) := by
  induction segments generalizing children with
  | nil => rw [Children.pushAll, List.append_nil]
  | cons child rest ih =>
      -- the ids are distinct as a whole, so the child's is not taken yet
      have hfree : child.id ∉ Children.ids children := by
        intro hm
        rw [Children.Distinct, Children.ids, List.map_append] at hd
        obtain ⟨-, -, hapart⟩ := List.nodup_append.1 hd
        exact hapart _ hm _ (List.mem_map_of_mem List.mem_cons_self) rfl
      have hpush : Children.push parent children child = .ok (children ++ [child]) :=
        Children.push_eq_ok_iff.2 ⟨hfree, rfl⟩
      rw [Children.pushAll, hpush]
      simp only
      rw [ih (by simpa using hd), List.append_assoc, List.singleton_append]

theorem ofList_of_distinct (parent : String) {segments : List Segment}
    (hd : Children.Distinct segments) : Children.ofList parent segments = .ok segments :=
  @pushAll_of_distinct parent [] segments hd

/-! ## Edits -/

theorem id_putContent (content : String) (ids : List String) (tree : Segment) :
    (putContent content ids tree).id = tree.id := by
  cases ids <;> cases tree <;> rfl

/-- Children under a function that keeps ids have the ids they had. -/
theorem ids_map {f : Segment → Segment} (hf : ∀ child, (f child).id = child.id)
    (children : List Segment) : Children.ids (children.map f) = Children.ids children := by
  simp only [Children.ids, List.map_map, Function.comp_def, hf]

theorem WellFormed.mapChildren {tree : Segment} {f : Segment → Segment}
    (hf : ∀ child, (f child).id = child.id)
    (hw : ∀ child ∈ tree.children, (f child).WellFormed) (h : tree.WellFormed) :
    (tree.mapChildren f).WellFormed := by
  have hdistinct : Children.Distinct (tree.children.map f) := by
    rw [Children.Distinct, ids_map hf]
    exact h.distinct
  have heach : ∀ child ∈ tree.children.map f, child.WellFormed := by
    intro child hc
    obtain ⟨before, hb, rfl⟩ := List.mem_map.1 hc
    exact hw before hb
  cases h with
  | literal id content => exact .literal id content
  | editable id content => exact .editable id content
  | composite => exact .composite hdistinct heach
  | region => exact .region hdistinct heach
  | @synchronized merged _ order _ _ listed history =>
      -- no id changes, so the order still lists the children
      have hlisted : order.Perm (Children.ids (merged.children.map f)) := by rwa [ids_map hf]
      exact .synchronized hdistinct heach hlisted history

theorem WellFormed.putContent {tree : Segment} (content : String) (ids : List String)
    (h : tree.WellFormed) : (tree.putContent content ids).WellFormed := by
  induction ids generalizing tree with
  | nil =>
      cases tree with
      | editable id _ => exact .editable id content
      | literal | composite | region | synchronized => exact h
  | cons id ids ih =>
      apply h.mapChildren
      · intro child
        split
        · exact id_putContent content ids child
        · rfl
      · intro child hc
        split
        · exact ih (h.each hc)
        · exact h.each hc

/-- An edit changes no id and no order. -/
theorem WellFormed.setContent {tree edited : Segment} {target : Address} {content : String}
    (h : tree.WellFormed) (he : tree.setContent target content = .ok edited) :
    edited.WellFormed := by
  rw [Segment.setContent] at he
  split at he
  · cases he
    exact h.putContent content target.ids
  · cases he
  · cases he

end Regeneration.Segment
