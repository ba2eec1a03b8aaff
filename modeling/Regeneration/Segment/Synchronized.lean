import Regeneration.Segment.Children

/-!
# Synchronized regions

A synchronized segment pairs a merged list region with the region of the run
before and with the order in which the merged children are emitted. Any requested
order can be given: it is settled against the merged children, so that every
child is emitted exactly once whatever was asked for.

Main statements: `mem_settleOrder` and `nodup_settleOrder`, which say that the settled order
lists exactly the ids of the merged region, each once.
-/

set_option autoImplicit false

namespace Regeneration

/-- A list without later occurrences of an element. -/
def firstOccurrences : List String → List String
  | [] => []
  | id :: rest => id :: (firstOccurrences rest).filter fun other => other != id

/-- The requested ids that are known, first occurrences only and as requested;
then the known ids that were not requested, in their own order. -/
def settleOrder (requested known : List String) : List String :=
  let listed := firstOccurrences (requested.filter fun id => known.contains id)
  listed ++ known.filter fun id => !listed.contains id

theorem mem_firstOccurrences {id : String} {ids : List String} :
    id ∈ firstOccurrences ids ↔ id ∈ ids := by
  induction ids with
  | nil => simp [firstOccurrences]
  | cons head tail ih =>
      by_cases h : id = head <;> simp [firstOccurrences, ih, h]

theorem nodup_firstOccurrences (ids : List String) : (firstOccurrences ids).Nodup := by
  induction ids with
  | nil => simp [firstOccurrences]
  | cons head tail ih => exact List.nodup_cons.2 ⟨by simp, ih.filter _⟩

/-- The settled order lists exactly the known ids. -/
theorem mem_settleOrder {id : String} {requested known : List String} :
    id ∈ settleOrder requested known ↔ id ∈ known := by
  by_cases h : id ∈ requested <;> by_cases hk : id ∈ known <;>
    simp [settleOrder, mem_firstOccurrences, h, hk]

/-- The settled order of distinct ids lists each once. -/
theorem nodup_settleOrder (requested : List String) {known : List String} (h : known.Nodup) :
    (settleOrder requested known).Nodup := by
  rw [settleOrder, List.nodup_append]
  refine ⟨nodup_firstOccurrences _, h.filter _, fun a ha b hb e => ?_⟩
  subst e
  simp_all

namespace Segment

/-- Pairs a merged region with its former self and a requested order. -/
def synchronize (merged : Region Segment) (former : Option (Region Segment))
    (requested : List String) : Segment :=
  .synchronized merged former (settleOrder requested (Children.ids merged.children))

/-- The children of a merged region in emitted order. -/
def emitted (merged : Region Segment) (order : List String) : Children :=
  Keyed.pick Segment.id order merged.children

/-- A merged region as a plain list region in emitted order. -/
def flatten (merged : Region Segment) (order : List String) : Region Segment :=
  { merged with children := Children.arrange order merged.children }

/-- The list region a segment stands for: its own, or its merged one in emitted
order. -/
def asRegion? : Segment → Option (Region Segment)
  | .region list => some list
  | .synchronized merged _ order => some (flatten merged order)
  | _ => none

end Segment

end Regeneration
