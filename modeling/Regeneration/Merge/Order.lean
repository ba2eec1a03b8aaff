import Regeneration.Segment.Synchronized

/-!
# The emitted order of a merged region

A region's policy alone decides how its merged children are ordered: by the
newest generation, or survivors first in the order they had before and new
children after them. The former region's policy plays no part.

Main statements: `emission_generated`, `mem_emission` and `nodup_emission`, by
which the order is the generated one or lists exactly the merged ids, each once.
-/

set_option autoImplicit false

namespace Regeneration.OrderPolicy

/-- The order in which a region with the given merged ids is emitted, when its
former self listed the ids `former`. -/
def emission (policy : OrderPolicy) (merged : List String) (former : List String) :
    List String :=
  match policy with
  | .generated => merged
  | .preserve => firstOccurrences (former.filter (fun id => merged.contains id) ++ merged)

theorem emission_generated (merged former : List String) :
    emission .generated merged former = merged := rfl

/-- Exactly the merged ids are emitted. -/
theorem mem_emission {policy : OrderPolicy} {merged former : List String} {id : String} :
    id ∈ emission policy merged former ↔ id ∈ merged := by
  cases policy with
  | generated => exact Iff.rfl
  | preserve =>
      simp only [emission, mem_firstOccurrences, List.mem_append, List.mem_filter,
        List.contains_iff_mem]
      exact ⟨fun h => h.elim And.right fun hm => hm, Or.inr⟩

/-- No id is emitted twice. -/
theorem nodup_emission (policy : OrderPolicy) {merged : List String} (former : List String)
    (h : merged.Nodup) : (emission policy merged former).Nodup := by
  cases policy with
  | generated => exact h
  | preserve => exact nodup_firstOccurrences _

end Regeneration.OrderPolicy
