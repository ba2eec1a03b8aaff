import Mathlib.Data.Finset.Insert
import Regeneration.Proofs.Segment.Built
import Regeneration.Proofs.Segment.Edits

/-!
# The order that a merged region holds

A merged region may be given any order. It keeps the ids that name children, each where it
is first named, and puts the children that were not named behind them. The order is made by
going through the request once and through the children once, with the set of the ids placed
so far at hand. Whatever was requested, the ids of the children come out, each once; so the
order is as good a list of the children as the children themselves, and choosing by it or
arranging by it gives the same list.

Edits change contents only. So a region holds its order from the merge that made it on.

Main statement: `settled_order`. What the order is says `settles_iff`, and what follows from
it for the children is `complete_of_perm`.
-/

set_option autoImplicit false

namespace Regeneration

/-! ## What order is settled -/

/-- An order that begins with the known ids among the requested ones, by where each was first
requested, and ends with the known ids that were not requested. -/
def Settles (requested known order : List String) : Prop :=
  ∃ front, order = front ++ known.filter (fun id => !requested.contains id) ∧
    (∀ id, id ∈ front ↔ id ∈ requested ∧ id ∈ known) ∧
    front.Pairwise fun id other => requested.idxOf id < requested.idxOf other

/-- First occurrences come by their first places. -/
theorem pairwise_firstOccurrences (ids : List String) :
    (firstOccurrences ids).Pairwise fun id other => ids.idxOf id < ids.idxOf other := by
  induction ids with
  | nil => exact List.Pairwise.nil
  | cons head tail ih =>
      have hne : ∀ id ∈ (firstOccurrences tail).filter fun other => other != head, head ≠ id := by
        intro id hm he
        simp [he] at hm
      refine List.pairwise_cons.2 ⟨?_, ?_⟩
      · intro id hm
        rw [List.idxOf_cons_self, List.idxOf_cons_ne tail (hne id hm)]
        exact Nat.succ_pos _
      · -- both ids are others than the head, so both places move by one
        refine (ih.filter _).imp_of_mem ?_
        intro id other hm hm' hlt
        rw [List.idxOf_cons_ne tail (hne id hm), List.idxOf_cons_ne tail (hne other hm')]
        exact Nat.succ_lt_succ hlt

/-- Ids in order of their places are determined by which they are. -/
theorem eq_of_pairwise_idxOf {requested front other : List String}
    (hf : front.Pairwise fun id next => requested.idxOf id < requested.idxOf next)
    (ho : other.Pairwise fun id next => requested.idxOf id < requested.idxOf next)
    (h : ∀ id, id ∈ front ↔ id ∈ other) : front = other := by
  have hdistinct : ∀ {ids : List String},
      ids.Pairwise (fun id next => requested.idxOf id < requested.idxOf next) → ids.Nodup := by
    intro ids hids
    refine hids.imp ?_
    rintro id _ hlt rfl
    exact Nat.lt_irrefl _ hlt
  have hp : front.Perm other := (List.perm_ext_iff_of_nodup (hdistinct hf) (hdistinct ho)).2 h
  refine hp.eq_of_pairwise ?_ hf ho
  intro id next _ _ hlt hgt
  exact absurd hlt (Nat.lt_asymm hgt)

/-- **The settled order** is the only one that begins with the requested ids by their first
places and ends with the others. -/
theorem settles_iff {requested known order : List String} :
    Settles requested known order ↔ order = settleOrder requested known := by
  have hfront : ∀ id, id ∈ firstOccurrences (requested.filter fun id => known.contains id) ↔
      id ∈ requested ∧ id ∈ known := by
    intro id
    rw [mem_firstOccurrences, List.mem_filter, List.contains_iff_mem]
  have hplaces : (firstOccurrences (requested.filter fun id => known.contains id)).Pairwise
      fun id other => requested.idxOf id < requested.idxOf other := by
    rw [firstOccurrences_filter]
    exact (pairwise_firstOccurrences requested).filter _
  -- of the known ids, those not listed are those not requested
  have hback : (known.filter fun id =>
        !(firstOccurrences (requested.filter fun id => known.contains id)).contains id)
      = known.filter fun id => !requested.contains id := by
    apply List.filter_congr
    intro id hm
    rw [Bool.not_inj_iff, Bool.eq_iff_iff, List.contains_iff_mem, List.contains_iff_mem, hfront]
    exact and_iff_left hm
  constructor
  · rintro ⟨front, rfl, hmem, hpairwise⟩
    have hsame : front = firstOccurrences (requested.filter fun id => known.contains id) := by
      apply eq_of_pairwise_idxOf hpairwise hplaces
      intro id
      rw [hmem, hfront]
    rw [settleOrder, hback, hsame]
  · rintro rfl
    exact ⟨_, by rw [settleOrder, hback], hfront, hplaces⟩

/-! ## Settling in turn -/

/-- The ids placed so far: which they are, and in the order in which they were placed. -/
structure Placing where
  placed : Finset String := ∅
  order : List String := []

namespace Placing

/-- Places an id behind the others, unless it is placed already. -/
def place (placing : Placing) (id : String) : Placing :=
  if id ∈ placing.placed then placing
  else ⟨insert id placing.placed, placing.order ++ [id]⟩

/-- Places an id if it is known. -/
def request (known : List String) (placing : Placing) (id : String) : Placing :=
  if id ∈ known then placing.place id else placing

/-- The set and the order have the same ids. -/
def Sound (placing : Placing) : Prop := ∀ id, id ∈ placing.placed ↔ id ∈ placing.order

theorem sound_empty : Sound {} := fun id => by simp

theorem Sound.place {placing : Placing} (h : placing.Sound) (id : String) :
    (placing.place id).Sound := by
  intro other
  rw [Placing.place]
  split
  · exact h other
  · rw [Finset.mem_insert, List.mem_append, List.mem_singleton, h other, or_comm]

/-- **Placing ids in turn** appends the first occurrences of those not placed before. -/
theorem order_foldl_place {placing : Placing} (h : placing.Sound) (ids : List String) :
    (ids.foldl place placing).Sound ∧
      (ids.foldl place placing).order
        = placing.order ++ (firstOccurrences ids).filter fun id => !placing.order.contains id := by
  induction ids generalizing placing with
  | nil => exact ⟨h, (List.append_nil _).symm⟩
  | cons id rest ih =>
      obtain ⟨hsound, horder⟩ := ih (h.place id)
      refine ⟨hsound, ?_⟩
      rw [List.foldl_cons, horder, firstOccurrences]
      by_cases hm : id ∈ placing.order
      · -- the id was placed before, and so is every later occurrence of it
        rw [Placing.place, if_pos ((h id).2 hm), List.filter_cons_of_neg (by simpa using hm),
          List.filter_filter]
        congr 1
        apply List.filter_congr
        intro other _
        by_cases hid : other = id
        · simp [hid, hm]
        · simp [hid]
      · rw [Placing.place, if_neg (mt (h id).1 hm), List.filter_cons_of_pos (by simpa using hm),
          List.filter_filter, List.append_assoc, List.singleton_append]
        congr 2
        apply List.filter_congr
        intro other _
        by_cases hid : other = id
        · simp [hid]
        · simp [hid]

end Placing

/-- The requested ids placed in turn if they are known, and then the known ids that were not
placed. -/
def settleInTurn (requested known : List String) : List String :=
  let placing := requested.foldl (Placing.request known) {}
  placing.order ++ known.filter fun id => decide (id ∉ placing.placed)

theorem settleInTurn_eq (requested known : List String) :
    settleInTurn requested known = settleOrder requested known := by
  have hrequest : requested.foldl (Placing.request known) {}
      = (requested.filter fun id => known.contains id).foldl Placing.place {} := by
    rw [List.foldl_filter]
    simp only [List.contains_iff_mem]
    rfl
  obtain ⟨hsound, horder⟩ := Placing.order_foldl_place Placing.sound_empty
    (requested.filter fun id => known.contains id)
  have hlisted : (requested.foldl (Placing.request known) {}).order
      = firstOccurrences (requested.filter fun id => known.contains id) := by
    rw [hrequest, horder]
    simp
  rw [settleInTurn, settleOrder, hlisted]
  congr 1
  apply List.filter_congr
  intro id _
  rw [← hlisted, hrequest, Bool.eq_iff_iff, decide_eq_true_iff, hsound id]
  simp

/-- The order a policy asks for: for preserving ones, the former ids that are merged and then
the merged ids, placed in turn. -/
def OrderPolicy.emissionInTurn (policy : OrderPolicy) (merged former : List String) :
    List String :=
  match policy with
  | .generated => merged
  | .preserve =>
    ((former.filter (fun id => merged.contains id) ++ merged).foldl Placing.place {}).order

theorem OrderPolicy.emissionInTurn_eq (policy : OrderPolicy) (merged former : List String) :
    policy.emissionInTurn merged former = policy.emission merged former := by
  cases policy with
  | generated => rfl
  | preserve =>
      rw [emissionInTurn, (Placing.order_foldl_place Placing.sound_empty _).2, emission]
      simp

namespace Segment

/-! ## What an order of all the children gives -/

/-- An order that lists the children of a merged region, each once. The children emitted by
it are the merged ones and no former ones, and they are the children of the region
flattened. -/
structure Complete (merged : Region Segment) (former : Option (Region Segment))
    (order : List String) : Prop where
  listed : order.Perm (Children.ids merged.children)
  nodup : order.Nodup
  emits : (emitted merged order).Perm merged.children
  ids_emitted : Children.ids (emitted merged order) = order
  history : ∀ list, former = some list → ∀ gone ∈ list.children,
    gone.id ∉ Children.ids merged.children → gone.id ∉ Children.ids (emitted merged order)
  flat : flatten merged order = { merged with children := emitted merged order }

/-- **An order that lists the children, each once, is complete.** -/
theorem complete_of_perm {merged : Region Segment} (former : Option (Region Segment))
    {order : List String} (hd : Children.Distinct merged.children)
    (hp : order.Perm (Children.ids merged.children)) : Complete merged former order := by
  have harrange : emitted merged order = Children.arrange order merged.children :=
    Keyed.pick_eq_arrange hp hd
  -- every listed id names a child, so none is passed over
  have hids : Children.ids (emitted merged order) = order := by
    have hkeys : Children.ids (emitted merged order) = _ :=
      Keyed.pick_keys order merged.children
    rw [hkeys, List.filter_eq_self]
    intro id hm
    exact Keyed.contains_iff.2 (hp.subset hm)
  refine ⟨hp, hp.nodup_iff.2 hd, ?_, hids, ?_, ?_⟩
  · rw [harrange]
    exact Keyed.arrange_perm order merged.children
  · intro _ _ gone _ hgone hm
    rw [hids] at hm
    exact hgone (hp.subset hm)
  · rw [flatten, harrange]

/-! ## Edits -/

/-- The tree after an edit; one that is refused leaves it as it is. -/
def afterEdit (tree : Segment) (edit : Address × String) : Segment :=
  match tree.setContent edit.1 edit.2 with
  | .ok edited => edited
  | .error _ => tree

/-- The tree after some edits, one after another. -/
def afterEdits (tree : Segment) (edits : List (Address × String)) : Segment :=
  edits.foldl afterEdit tree

/-- An edit leaves what is at a place that is no editable leaf, but for what is below it. -/
theorem outline_afterEdit (tree : Segment) (edit : Address × String) {ids : List String}
    {place : Segment} (hl : tree.live? ids = some place) (hk : place.kind ≠ .editable) :
    ((tree.afterEdit edit).live? ids).map outline = some place.outline := by
  rw [afterEdit]
  split
  · next edited he =>
      obtain ⟨⟨id, held, htarget⟩, rfl⟩ := (setContent_eq_ok_iff tree edit.1 edit.2).1 he
      have hne : ids ≠ edit.1.ids := by
        rintro rfl
        cases hl.symm.trans htarget
        exact hk rfl
      rw [outline_putContent htarget, hl, Option.map_some, if_neg hne]
  · rw [hl, Option.map_some]

theorem eq_of_outline_synchronized {place : Segment} {merged : Region Segment}
    {former : Option (Region Segment)} {order : List String}
    (h : place.outline = outline (.synchronized merged former order)) :
    ∃ edited, place = .synchronized edited former order ∧
      Children.ids edited.children = Children.ids merged.children := by
  have hids := congrArg (fun tree : Segment => Children.ids tree.children) h
  simp only [ids_outline] at hids
  cases place with
  | literal | editable | composite | region => cases h
  | synchronized edited past stored =>
      simp only [outline, withChildren, Segment.synchronized.injEq] at h
      obtain ⟨-, rfl, rfl⟩ := h
      exact ⟨edited, rfl, hids⟩

/-- **A merged region keeps its order** through any edits of the tree. -/
theorem live?_afterEdits {tree : Segment} {ids : List String} {merged : Region Segment}
    {former : Option (Region Segment)} {order : List String}
    (hl : tree.live? ids = some (.synchronized merged former order))
    (edits : List (Address × String)) :
    ∃ edited, (tree.afterEdits edits).live? ids = some (.synchronized edited former order) ∧
      Children.ids edited.children = Children.ids merged.children := by
  induction edits generalizing tree merged with
  | nil => exact ⟨merged, hl, rfl⟩
  | cons edit rest ih =>
      obtain ⟨place, hplace, houtline⟩ :=
        Option.map_eq_some_iff.1 (outline_afterEdit tree edit hl nofun)
      obtain ⟨middle, rfl, hmiddle⟩ := eq_of_outline_synchronized houtline
      obtain ⟨edited, hedited, hids⟩ := ih hplace
      exact ⟨edited, hedited, hids.trans hmiddle⟩

theorem complete_of_built {tree : Segment} (h : tree.Built) {ids : List String}
    {merged : Region Segment} {former : Option (Region Segment)} {order : List String}
    (hf : tree.find? ids = some (.synchronized merged former order)) :
    Complete merged former order := by
  have hwell := h.wellFormed.find? hf
  cases hwell with
  | synchronized distinct _ listed _ => exact complete_of_perm former distinct listed

/-- **A merged region always holds its children's ids, each once.** Whatever is requested of
it, it holds the requested ids that are children, first occurrences only and as requested,
and behind them the other ids, as merged. This is the request itself if that lists every
child once, as the orders of both policies do. All children are emitted in that order, each
once, and no former child is; the region flattened has exactly the emitted children. Edits
anywhere in a tree change nothing of this, and it is so in every tree that can be built. -/
theorem settled_order {merged : Region Segment} (hd : Children.Distinct merged.children)
    (former : Option (Region Segment)) (requested : List String) :
    ∃ order, synchronize merged former requested = .synchronized merged former order ∧
      (∀ other, Settles requested (Children.ids merged.children) other ↔ other = order) ∧
      order = settleInTurn requested (Children.ids merged.children) ∧
      (requested.Perm (Children.ids merged.children) → order = requested) ∧
      (∀ (policy : OrderPolicy) (old : Option (Region Segment)),
        let asked := policy.emission (Children.ids merged.children) (Children.ids (formerList old))
        asked = policy.emissionInTurn (Children.ids merged.children)
            (Children.ids (formerList old)) ∧
          synchronize merged former asked = .synchronized merged former asked) ∧
      Complete merged former order ∧
      (∀ (tree : Segment) ids edits,
        tree.live? ids = some (.synchronized merged former order) →
        ∃ edited, (tree.afterEdits edits).live? ids = some (.synchronized edited former order) ∧
          Children.ids edited.children = Children.ids merged.children ∧
          Complete edited former order) ∧
      (∀ tree : Segment, tree.Built → ∀ ids list past stored,
        tree.find? ids = some (.synchronized list past stored) → Complete list past stored) := by
  have hperm := settleOrder_perm requested hd
  refine ⟨settleOrder requested (Children.ids merged.children), rfl, fun _ => settles_iff,
    (settleInTurn_eq requested _).symm, fun hp => settleOrder_of_perm hp hd, ?_,
    complete_of_perm former hd hperm, ?_, ?_⟩
  · intro policy old asked
    refine ⟨(OrderPolicy.emissionInTurn_eq policy _ _).symm, ?_⟩
    rw [synchronize, settleOrder_of_perm (OrderPolicy.emission_perm policy _ hd) hd]
  · -- the ids are those they were, so the order still lists them
    intro tree ids edits hl
    obtain ⟨edited, hedited, hids⟩ := live?_afterEdits hl edits
    have hdistinct : Children.Distinct edited.children := by
      rw [Children.Distinct, hids]
      exact hd
    have hlisted : (settleOrder requested (Children.ids merged.children)).Perm
        (Children.ids edited.children) := by rwa [hids]
    exact ⟨edited, hedited, hids, complete_of_perm former hdistinct hlisted⟩
  · intro tree hbuilt ids list past stored hf
    exact complete_of_built hbuilt hf

/-- Three rows with a former one, of which `c` is requested twice and `b` not at all: the rows
are emitted as `c`, `a`, `b`, and still are when the content of `a` has been edited. -/
theorem settled_order_rows :
    Children.Distinct (Sample.rowsOf ["a", "b", "c"]).children ∧
    synchronize (Sample.rowsOf ["a", "b", "c"]) (some (Sample.rowsOf ["d"])) ["c", "d", "c", "a"]
      = .synchronized (Sample.rowsOf ["a", "b", "c"]) (some (Sample.rowsOf ["d"]))
          ["c", "a", "b"] ∧
    Complete (Sample.rowsOf ["a", "b", "c"]) (some (Sample.rowsOf ["d"])) ["c", "a", "b"] ∧
    ∃ edited, (afterEdits (synchronize (Sample.rowsOf ["a", "b", "c"])
        (some (Sample.rowsOf ["d"])) ["c", "d", "c", "a"]) [(⟨["a"]⟩, "new")]).live? []
          = some (.synchronized edited (some (Sample.rowsOf ["d"])) ["c", "a", "b"]) ∧
      Complete edited (some (Sample.rowsOf ["d"])) ["c", "a", "b"] := by
  have hd : Children.Distinct (Sample.rowsOf ["a", "b", "c"]).children := by
    rw [Children.Distinct]
    decide
  obtain ⟨order, hmade, -, horder, -, -, hcomplete, hedits, -⟩ :=
    settled_order hd (some (Sample.rowsOf ["d"])) ["c", "d", "c", "a"]
  have hstored : order = ["c", "a", "b"] := by
    rw [horder]
    decide
  subst hstored
  obtain ⟨edited, hedited, -, hstill⟩ := hedits _ [] [(⟨["a"]⟩, "new")] rfl
  rw [hmade]
  exact ⟨hd, rfl, hcomplete, edited, hedited, hstill⟩

end Segment

end Regeneration
