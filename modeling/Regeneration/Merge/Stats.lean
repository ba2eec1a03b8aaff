/-!
# Merge counters

What a merge did with the content of the run before. Counters of several merges
add up component by component.

Main statements: `add_assoc`, `add_comm` and `zero_add`, by which counters may be
summed in any order.
-/

set_option autoImplicit false

namespace Regeneration

/-- Counters of one or several merges. -/
structure MergeStats where
  /-- Editable leaves whose former content was carried over. -/
  preserved : Nat
  /-- Editable leaves that kept the generated default. -/
  defaulted : Nat
  /-- Children of list regions that are no longer generated. -/
  dropped : Nat
  /-- Children of list regions without a former place. -/
  introduced : Nat
  deriving DecidableEq, Repr

namespace MergeStats

/-- Nothing counted. -/
def zero : MergeStats := ⟨0, 0, 0, 0⟩

/-- The sum of two counters. -/
def add (a b : MergeStats) : MergeStats :=
  ⟨a.preserved + b.preserved, a.defaulted + b.defaulted, a.dropped + b.dropped,
    a.introduced + b.introduced⟩

instance : Zero MergeStats := ⟨zero⟩

instance : Add MergeStats := ⟨add⟩

/-- Whether nothing was counted. -/
def isEmpty (stats : MergeStats) : Bool := stats == zero

/-- The sum over a list of counters. -/
def total (all : List MergeStats) : MergeStats := all.foldl add zero

/-- The counters as they appear in log lines. -/
def describe (stats : MergeStats) : String :=
  "MergeStats \x7b preserved: " ++ toString stats.preserved ++ ", defaulted: "
    ++ toString stats.defaulted ++ ", dropped: " ++ toString stats.dropped ++ ", introduced: "
    ++ toString stats.introduced ++ " \x7d"

theorem add_assoc (a b c : MergeStats) : a + b + c = a + (b + c) := by
  change add (add a b) c = add a (add b c)
  simp [add, Nat.add_assoc]

theorem add_comm (a b : MergeStats) : a + b = b + a := by
  change add a b = add b a
  simp [add, Nat.add_comm]

theorem zero_add (a : MergeStats) : 0 + a = a := by
  change add zero a = a
  simp [add, zero]

theorem add_zero (a : MergeStats) : a + 0 = a := by
  rw [add_comm, zero_add]

end MergeStats

end Regeneration
