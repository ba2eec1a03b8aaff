import Mathlib.Data.List.Perm.Subperm
import Regeneration.Proofs.Merge.Generations
import Regeneration.Segment.Equality

/-!
# What equal trees have in common

Trees that compare equal have the same live places, and at each of them segments of one
kind, id, policy and content, but only for a synchronized segment is the order of the
children compared. So equal trees may emit the children of other containers in different
orders. That is all: they have one record, and one text then, exactly if they emit the same
order at every place.

Main statements: `same_live?` and `record_eq_of_same`.
-/

set_option autoImplicit false

namespace Regeneration.Segment

/-! ## One step -/

theorem sameEach_iff {children : List Segment} {others : Children} :
    sameEach children others = true ↔
      ∀ child ∈ children, ∃ other, others.get? child.id = some other ∧ child.same other = true := by
  induction children with
  | nil => simp [sameEach]
  | cons child rest ih =>
      rw [sameEach, Bool.and_eq_true, ih, List.forall_mem_cons]
      cases others.get? child.id <;> simp

theorem sameRegion_iff {list other : Region Segment} :
    sameRegion list other = true ↔
      ((list.id = other.id ∧ list.policy = other.policy) ∧
        list.children.length = other.children.length) ∧
      ∀ child ∈ list.children, ∃ counterpart, Children.get? other.children child.id
        = some counterpart ∧ child.same counterpart = true := by
  rw [sameRegion, Bool.and_eq_true, Bool.and_eq_true, Bool.and_eq_true, beq_iff_eq, beq_iff_eq,
    beq_iff_eq, sameEach_iff]

/-- What two segments that compare equal have in common, and their children. -/
structure Alike (tree other : Segment) : Prop where
  id : tree.id = other.id
  kind : tree.kind = other.kind
  policy : tree.policy? = other.policy?
  content : tree.content? = other.content?
  order : tree.kind = .synchronized → tree.childOrder = other.childOrder
  length : tree.children.length = other.children.length
  each : ∀ child ∈ tree.children, ∃ counterpart, other.liveChild? child.id = some counterpart ∧
    child.same counterpart = true

theorem alike_of_same {tree other : Segment} (h : tree.same other = true) : Alike tree other := by
  -- segments of different kinds never compare equal
  cases tree with
  | literal id content =>
      cases other with
      | literal =>
          obtain ⟨rfl, rfl⟩ : id = _ ∧ content = _ := by simpa [same] using h
          exact ⟨rfl, rfl, rfl, rfl, fun _ => rfl, rfl, fun _ hm => nomatch hm⟩
      | _ => cases h
  | editable id content =>
      cases other with
      | editable =>
          obtain ⟨rfl, rfl⟩ : id = _ ∧ content = _ := by simpa [same] using h
          exact ⟨rfl, rfl, rfl, rfl, fun _ => rfl, rfl, fun _ hm => nomatch hm⟩
      | _ => cases h
  | composite id children =>
      cases other with
      | composite name others =>
          rw [same, Bool.and_eq_true, Bool.and_eq_true, beq_iff_eq, beq_iff_eq, sameEach_iff] at h
          obtain ⟨⟨rfl, hlength⟩, heach⟩ := h
          exact ⟨rfl, rfl, rfl, rfl, nofun, hlength, heach⟩
      | _ => cases h
  | region list =>
      cases other with
      | region =>
          rw [same] at h
          obtain ⟨⟨⟨hid, hpolicy⟩, hlength⟩, heach⟩ := sameRegion_iff.1 h
          exact ⟨hid, rfl, congrArg some hpolicy, rfl, nofun, hlength, heach⟩
      | _ => cases h
  | synchronized merged former order =>
      cases other with
      | synchronized =>
          rw [same, Bool.and_eq_true, Bool.and_eq_true, beq_iff_eq] at h
          obtain ⟨⟨hregion, -⟩, horder⟩ := h
          obtain ⟨⟨⟨hid, hpolicy⟩, hlength⟩, heach⟩ := sameRegion_iff.1 hregion
          exact ⟨hid, rfl, congrArg some hpolicy, rfl, fun _ => horder, hlength, heach⟩
      | _ => cases h

/-- Comparing equal, as a relation. -/
def Same (tree other : Segment) : Prop := tree.same other = true

section Children

variable {tree other : Segment} (ht : tree.WellFormed)

include ht

/-- Equal trees have children of the same ids, in some order. -/
theorem ids_perm_of_same (h : Same tree other) :
    (Children.ids tree.children).Perm (Children.ids other.children) := by
  have halike := alike_of_same h
  have hsub : Children.ids tree.children ⊆ Children.ids other.children := by
    intro id hm
    obtain ⟨child, hc, rfl⟩ := List.mem_map.1 hm
    obtain ⟨counterpart, hcounterpart, -⟩ := halike.each child hc
    exact Keyed.find?_isSome_iff.1 (Option.isSome_of_eq_some hcounterpart)
  -- the ids are distinct and as many as those of the other tree, so they are all of them
  have hlength : (Children.ids other.children).length ≤ (Children.ids tree.children).length := by
    rw [Children.ids, Children.ids, List.length_map, List.length_map]
    exact Nat.le_of_eq halike.length.symm
  exact (List.subperm_of_subset ht.distinct hsub).perm_of_length_le hlength

/-- They emit these ids, in some order. -/
theorem childOrder_perm_of_same (ho : other.WellFormed) (h : Same tree other) :
    tree.childOrder.Perm other.childOrder := by
  have htree := tree.emittedChildren_perm.map Segment.id
  have hother := other.emittedChildren_perm.map Segment.id
  rw [childOrder_eq ht, childOrder_eq ho]
  exact (htree.trans (ids_perm_of_same ht h)).trans hother.symm

/-- Both have an equal child of an id, or none has one. -/
theorem liveChild?_of_same (h : Same tree other) (id : String) :
    Option.Rel Same (tree.liveChild? id) (other.liveChild? id) := by
  cases hc : tree.liveChild? id with
  | some child =>
      have hid : child.id = id := Keyed.key_of_find? hc
      obtain ⟨counterpart, hcounterpart, hsame⟩ :=
        (alike_of_same h).each child (Keyed.mem_of_find? hc)
      rw [hid] at hcounterpart
      rw [hcounterpart]
      exact .some hsame
  | none =>
      have hnone : other.liveChild? id = none := by
        rw [← Option.not_isSome_iff_eq_none]
        intro hsome
        have hm : id ∈ Children.ids tree.children :=
          (ids_perm_of_same ht h).mem_iff.2 (Keyed.find?_isSome_iff.1 hsome)
        have htree : (tree.liveChild? id).isSome := Keyed.find?_isSome_iff.2 hm
        rw [hc] at htree
        cases htree
      rw [hnone]
      exact .none

end Children

/-! ## Every place -/

/-- **Equal trees have the same live places**, with equal segments there. -/
theorem same_live? {tree other : Segment} (ht : tree.WellFormed) (h : Same tree other)
    (ids : List String) : Option.Rel Same (tree.live? ids) (other.live? ids) := by
  induction ids generalizing tree other with
  | nil => exact .some h
  | cons id ids ih =>
      have hchild := liveChild?_of_same ht h id
      rw [live?, live?]
      generalize hc : tree.liveChild? id = child at hchild ⊢
      generalize other.liveChild? id = counterpart at hchild ⊢
      cases hchild with
      | none => exact .none
      | some hsame => exact ih (ht.liveChild hc) hsame

theorem alike_live? {tree other : Segment} (ht : tree.WellFormed) (h : Same tree other)
    (ids : List String) : Option.Rel Alike (tree.live? ids) (other.live? ids) := by
  have hplace := same_live? ht h ids
  generalize tree.live? ids = place at hplace ⊢
  generalize other.live? ids = counterpart at hplace ⊢
  cases hplace with
  | none => exact .none
  | some hsame => exact .some (alike_of_same hsame)

/-- The same ids are emitted at every place, in some order. -/
theorem emittedAt_perm_of_same {tree other : Segment} (ht : tree.WellFormed)
    (ho : other.WellFormed) (h : Same tree other) (ids : List String) :
    (tree.emittedAt ids).Perm (other.emittedAt ids) := by
  have hplace := same_live? ht h ids
  rw [emittedAt, emittedAt]
  generalize hl : tree.live? ids = place at hplace ⊢
  generalize hcounterpart : other.live? ids = counterpart at hplace ⊢
  cases hplace with
  | none => exact .refl _
  | some hsame => exact childOrder_perm_of_same (ht.live hl) (ho.live hcounterpart) hsame

/-- Records with the same parts are the same. -/
theorem record_eq_of_alike {tree other : Segment} (h : Alike tree other)
    (hchildren : (Record.ofSegment tree).children = (Record.ofSegment other).children) :
    Record.ofSegment tree = Record.ofSegment other := by
  obtain ⟨hid, hkind, hpolicy, hcontent, -, -, -⟩ := h
  cases tree <;> cases other <;> cases hkind <;>
    simp_all [Record.ofSegment, Record.children, policy?, content?, id]

/-- **Equal trees have one record** if they emit the same order at every place. -/
theorem record_eq_of_same {tree other : Segment} (ht : tree.WellFormed) (ho : other.WellFormed)
    (h : Same tree other) (horder : ∀ ids, tree.emittedAt ids = other.emittedAt ids) :
    Record.ofSegment tree = Record.ofSegment other := by
  induction tree using children_induction generalizing other with
  | step tree ih =>
      have hids : tree.emittedChildren.map Segment.id = other.emittedChildren.map Segment.id := by
        rw [← childOrder_eq ht, ← childOrder_eq ho]
        exact horder []
      -- the orders below a child are those below its place, so children of one id have one record
      have hrecords : tree.emittedChildren.map Record.ofSegment
          = other.emittedChildren.map Record.ofSegment := by
        apply Keyed.map_eq_of_keys hids
        intro child hm counterpart hcounterpart hid
        have hm := Record.mem_emittedChildren.1 hm
        have hcounterpart := Record.mem_emittedChildren.1 hcounterpart
        have hc : tree.liveChild? child.id = some child :=
          ht.liveChild?_eq_some_iff.2 ⟨hm, rfl⟩
        have hf : other.liveChild? child.id = some counterpart :=
          ho.liveChild?_eq_some_iff.2 ⟨hcounterpart, hid.symm⟩
        have hchild := liveChild?_of_same ht h child.id
        rw [hc, hf] at hchild
        cases hchild with
        | some hsame =>
            apply ih child hm (ht.each hm) (ho.liveChild hf) hsame
            intro ids
            rw [← emittedAt_cons hc, ← emittedAt_cons hf, horder]
      apply record_eq_of_alike (alike_of_same h)
      rw [Record.children_ofSegment ht, Record.children_ofSegment ho, hrecords]

end Regeneration.Segment
