import Mathlib.Data.List.Induction
import Regeneration.Merge.Basic
import Regeneration.Segment.Record
import Regeneration.Proofs.Merge.Recorded

/-!
# Trees as they are built

A tree comes from leaves and child lists by the operations there are: containers are made
of child lists, merged regions of any two regions and any requested order, and trees are
rebuilt from records, merged, edited, flattened and taken apart. Each of these operations
gives well-formed trees.

Main statements: `Built.wellFormed`, and `built_iff`, that every well-formed tree can be
built.
-/

set_option autoImplicit false

namespace Regeneration.Segment

mutual
/-- Trees that the operations on trees give. -/
inductive Built : Segment → Prop where
  | literal (id content : String) : Built (.literal id content)
  | editable (id content : String) : Built (.editable id content)
  | composite (id : String) {children : Children} (list : BuiltList children) :
      Built (.composite id children)
  | region (id : String) (policy : OrderPolicy) {children : Children}
      (list : BuiltList children) : Built (.region ⟨id, policy, children⟩)
  /-- Any two regions may be paired, and any order may be requested. -/
  | synchronize {merged : Region Segment} {former : Option (Region Segment)}
      (current : Built (.region merged))
      (history : ∀ list, former = some list → Built (.region list)) (requested : List String) :
      Built (synchronize merged former requested)
  | rebuilt {record : Record} {tree : Segment} (accepted : record.toSegment = .ok tree) :
      Built tree
  | merged {tree : Segment} {before : Option Segment} (new : Built tree)
      (old : ∀ former, before = some former → Built former) : Built (tree.merge before)
  | edited {tree edited : Segment} {target : Address} {content : String} (held : Built tree)
      (accepted : tree.setContent target content = .ok edited) : Built edited
  | flattened {tree : Segment} {list : Region Segment} (held : Built tree)
      (stands : tree.asRegion? = some list) : Built (.region list)
  | found {tree part : Segment} {ids : List String} (held : Built tree)
      (there : tree.find? ids = some part) : Built part

/-- Child lists that the operations on child lists give. -/
inductive BuiltList : Children → Prop where
  | empty : BuiltList []
  | push {children extended : Children} {parent : String} {child : Segment}
      (list : BuiltList children) (new : Built child)
      (accepted : Children.push parent children child = .ok extended) : BuiltList extended
  | remove {children : Children} (list : BuiltList children) (id : String) :
      BuiltList (children.remove id)
  | reorder {children arranged : Children} {parent : String} {order : List String}
      (list : BuiltList children)
      (accepted : Children.reorder parent order children = .ok arranged) : BuiltList arranged
  /-- The children of a tree, to go on with. -/
  | children {tree : Segment} (held : Built tree) : BuiltList tree.children
end

/-! ## What is built is well formed -/

/-- Child lists of distinct ids and of well-formed trees. -/
def WellFormedList (children : Children) : Prop :=
  Children.Distinct children ∧ ∀ child ∈ children, child.WellFormed

theorem WellFormedList.push {children extended : Children} {parent : String} {child : Segment}
    (h : WellFormedList children) (hc : child.WellFormed)
    (hpush : Children.push parent children child = .ok extended) : WellFormedList extended := by
  refine ⟨h.1.push hpush, ?_⟩
  obtain ⟨-, rfl⟩ := Children.push_eq_ok_iff.1 hpush
  intro other hm
  rcases List.mem_append.1 hm with hm | hm
  · exact h.2 other hm
  · rw [List.mem_singleton.1 hm]
    exact hc

theorem WellFormedList.remove {children : Children} (h : WellFormedList children) (id : String) :
    WellFormedList (children.remove id) := by
  have hsub := children.remove_sublist id
  exact ⟨h.1.sublist (hsub.map Segment.id), fun child hm => h.2 child (hsub.subset hm)⟩

theorem WellFormedList.reorder {children arranged : Children} {parent : String}
    {order : List String} (h : WellFormedList children)
    (hreorder : Children.reorder parent order children = .ok arranged) :
    WellFormedList arranged := by
  rw [Children.reorder] at hreorder
  split at hreorder
  · cases hreorder
    have hperm : (Children.arrange order children).Perm children :=
      Keyed.arrange_perm order children
    exact ⟨Keyed.nodup_arrange h.1 order, fun child hm => h.2 child (hperm.subset hm)⟩
  · cases hreorder

/-- Every child that can be found is well formed, a former one too. -/
theorem WellFormed.child? {tree child : Segment} {id : String} (h : tree.WellFormed)
    (hc : tree.child? id = some child) : child.WellFormed := by
  cases h with
  | literal => cases hc
  | editable => cases hc
  | composite _ each => exact each child (Keyed.mem_of_find? hc)
  | region _ each => exact each child (Keyed.mem_of_find? hc)
  | @synchronized merged former _ _ each _ history =>
      rcases Option.or_eq_some_iff.1 hc with hmerged | ⟨-, hformer⟩
      · exact each child (Keyed.mem_of_find? hmerged)
      · obtain ⟨list, hlist, hfound⟩ := Option.bind_eq_some_iff.1 hformer
        exact (history list hlist).each (Keyed.mem_of_find? hfound)

theorem WellFormed.find? {tree part : Segment} {ids : List String} (h : tree.WellFormed)
    (hf : tree.find? ids = some part) : part.WellFormed := by
  induction ids generalizing tree with
  | nil =>
      cases hf
      exact h
  | cons id ids ih =>
      obtain ⟨child, hchild, hrest⟩ := Option.bind_eq_some_iff.1 hf
      exact ih (h.child? hchild) hrest

mutual
/-- **What is built is well formed**, one case for each operation. -/
theorem Built.wellFormed : ∀ {tree : Segment}, Built tree → tree.WellFormed
  | _, .literal id content => .literal id content
  | _, .editable id content => .editable id content
  | _, .composite _ list => .composite list.wellFormed.1 list.wellFormed.2
  | _, .region _ _ list => .region list.wellFormed.1 list.wellFormed.2
  | _, .synchronize current history requested =>
      wellFormed_synchronize current.wellFormed (fun list he => (history list he).wellFormed)
        requested
  | _, .rebuilt accepted => (Record.toSegment_eq_ok accepted).2
  | _, .merged new old => new.wellFormed.merge fun former he => (old former he).wellFormed
  | _, .edited held accepted => held.wellFormed.setContent accepted
  | _, .flattened held stands => held.wellFormed.asRegion stands
  | _, .found held there => held.wellFormed.find? there

theorem BuiltList.wellFormed : ∀ {children : Children}, BuiltList children →
    WellFormedList children
  | _, .empty => ⟨List.nodup_nil, fun _ hm => nomatch hm⟩
  | _, .push list new accepted => list.wellFormed.push new.wellFormed accepted
  | _, .remove list id => list.wellFormed.remove id
  | _, .reorder list accepted => list.wellFormed.reorder accepted
  | _, .children held => ⟨held.wellFormed.distinct, fun _ hm => held.wellFormed.each hm⟩
end

/-! ## What is well formed can be built -/

/-- A list of distinct ids is built by appending one child after another. -/
theorem builtList_of_distinct {children : Children} (hd : Children.Distinct children)
    (h : ∀ child ∈ children, Built child) : BuiltList children := by
  induction children using List.reverseRecOn with
  | nil => exact .empty
  | append_singleton children child ih =>
      have hids : (Children.ids children ++ [child.id]).Nodup := by
        rw [Children.Distinct, Children.ids, List.map_append] at hd
        exact hd
      obtain ⟨hfront, -, hapart⟩ := List.nodup_append.1 hids
      have hlist : BuiltList children :=
        ih hfront fun other hm => h other (List.mem_append_left [child] hm)
      have hchild : Built child := h child (List.mem_append_right children List.mem_cons_self)
      have hfree : child.id ∉ Children.ids children := fun hm =>
        hapart _ hm _ List.mem_cons_self rfl
      have hpush : Children.push "" children child = .ok (children ++ [child]) :=
        Children.push_eq_ok_iff.2 ⟨hfree, rfl⟩
      exact .push hlist hchild hpush

/-- **Exactly the well-formed trees can be built.** -/
theorem built_iff {tree : Segment} : tree.Built ↔ tree.WellFormed := by
  refine ⟨Built.wellFormed, ?_⟩
  intro h
  induction h with
  | literal id content => exact .literal id content
  | editable id content => exact .editable id content
  | @composite id _ distinct _ ih => exact .composite id (builtList_of_distinct distinct ih)
  | @region list distinct _ ih =>
      exact .region list.id list.policy (builtList_of_distinct distinct ih)
  | @synchronized merged former order distinct _ listed _ ih ihFormer =>
      -- an order that lists every child once is settled as it is
      have hcurrent : Built (.region merged) :=
        .region merged.id merged.policy (builtList_of_distinct distinct ih)
      have hbuilt := Built.synchronize hcurrent ihFormer order
      rw [synchronize, settleOrder_of_perm listed distinct] at hbuilt
      exact hbuilt

end Regeneration.Segment
