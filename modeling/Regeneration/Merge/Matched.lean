import Regeneration.Merge.Basic
import Regeneration.Segment.Lookup

/-!
# Places that continue

A place of a new tree continues a place of a former tree when both trees have it
and the segments at the root and at every step down have the same shape. This is
the condition under which content and order are carried over, said without the
merge itself.

Main statement: `matched_cons_iff`, continuing step by step.
-/

set_option autoImplicit false

namespace Regeneration.Segment

/-- Whether the live place `ids` of the new tree continues the same live place of
the former tree. -/
def Matched (now before : Segment) : List String → Prop
  | [] => sameShape now.kind before.kind = true
  | id :: ids =>
    sameShape now.kind before.kind = true ∧
      ∃ child former, now.liveChild? id = some child ∧ before.liveChild? id = some former ∧
        Matched child former ids

theorem matched_cons_iff {now before : Segment} {id : String} {ids : List String} :
    Matched now before (id :: ids) ↔
      sameShape now.kind before.kind = true ∧
        ∃ child former, now.liveChild? id = some child ∧ before.liveChild? id = some former ∧
          Matched child former ids :=
  Iff.rfl

/-- Continuing can be decided on the way down. -/
instance decidableMatched : (now before : Segment) → (ids : List String) →
    Decidable (Matched now before ids)
  | now, before, [] => inferInstanceAs (Decidable (sameShape now.kind before.kind = true))
  | now, before, id :: ids =>
    match hn : now.liveChild? id, hb : before.liveChild? id with
    | some child, some former =>
      have := decidableMatched child former ids
      decidable_of_iff (sameShape now.kind before.kind = true ∧ Matched child former ids) (by
        simp [matched_cons_iff, hn, hb])
    | none, _ => isFalse (by simp [matched_cons_iff, hn])
    | _, none => isFalse (by simp [matched_cons_iff, hb])

/-- A continuing place is a live place of both trees. -/
theorem Matched.live {now before : Segment} {ids : List String} (h : Matched now before ids) :
    (now.live? ids).isSome ∧ (before.live? ids).isSome := by
  induction ids generalizing now before with
  | nil => exact ⟨rfl, rfl⟩
  | cons id ids ih =>
      obtain ⟨_, child, former, hc, hf, hrest⟩ := h
      simp only [live?, hc, hf, Option.bind_some]
      exact ih hrest

end Regeneration.Segment
