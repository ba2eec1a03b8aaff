import Regeneration.Proofs.Merge.Recorded
import Regeneration.Proofs.Record.Values

/-!
# Merging and nesting

A merge takes contents and an order from the former tree and nothing else, so its
record is nested no deeper than that of the new tree.

Main statement: `fits_merge`.
-/

set_option autoImplicit false

namespace Regeneration.Record

theorem fits_mergeEach {depth : Nat} {children : List Record}
    (ih : ∀ child ∈ children, ∀ limit before, child.toValue.Fits limit →
      (merge child before).toValue.Fits limit)
    (h : (Json.Value.array (toValues children)).Fits depth) (former : List Record) :
    (Json.Value.array (toValues (mergeEach children former))).Fits depth := by
  obtain ⟨less, rfl, hchildren⟩ := fits_toValues_iff.1 h
  rw [mergeEach_eq_map]
  refine fits_toValues_iff.2 ⟨less, rfl, List.forall_mem_map.2 fun child hc => ?_⟩
  exact ih child hc less _ (hchildren child hc)

/-- **A merge is nested no deeper than the new record.** -/
theorem fits_merge {depth : Nat} {record : Record} (before : Option Record)
    (h : record.toValue.Fits depth) : (merge record before).toValue.Fits depth := by
  induction record using record_induction generalizing depth before with
  | literal => exact h
  | editable id content =>
      obtain ⟨depth, rfl⟩ := exists_of_fits h
      cases before with
      | none => exact h
      | some former => cases former <;> exact fits_editable depth id _
  | composite id children ih =>
      obtain ⟨depth, rfl⟩ := exists_of_fits h
      rw [merge, fits_composite_iff]
      exact fits_mergeEach (fun child hc limit before => ih child hc before)
        (fits_composite_iff.1 h) _
  | region id policy children ih =>
      obtain ⟨depth, rfl⟩ := exists_of_fits h
      have heach := fits_mergeEach (fun child hc limit before => ih child hc before)
        (fits_region_iff.1 h)
      obtain ⟨less, rfl, hmerged⟩ := fits_toValues_iff.1 (heach (formerList before))
      rw [merge, fits_region_iff]
      -- the policy moves the merged children and changes none
      refine fits_toValues_iff.2 ⟨less, rfl, fun child hc => hmerged child ?_⟩
      exact (OrderPolicy.arranged_perm policy _ _).subset hc

end Regeneration.Record
