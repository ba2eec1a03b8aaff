import Mathlib.Data.List.Basic
import Regeneration.Run.Report

/-!
# Merging side by side

Files may be merged by workers that finish them in any order. Every result goes to the
position of its file, so what is collected is what merging one file after another gives,
and a run does not depend on how its files were merged.

Main statements: `collect_eq` and `regenerate_eq`.
-/

set_option autoImplicit false

namespace Regeneration

/-- The order in which workers finish the items of a list, by position. Every position is
finished at some time. -/
structure Schedule (count : Nat) where
  finished : List Nat
  complete : ∀ position < count, position ∈ finished

namespace Schedule

variable {α β : Type}

/-- The workers finish one item after another. -/
def inTurn (count : Nat) : Schedule count where
  finished := List.range count
  complete := fun _ h => List.mem_range.2 h

/-- The workers finish the last item first. -/
def backwards (count : Nat) : Schedule count where
  finished := (List.range count).reverse
  complete := fun _ h => List.mem_reverse.2 (List.mem_range.2 h)

/-- Puts the result for an item where the item is. -/
def finish (compute : α → β) (items : List α) (slots : List (Option β)) (position : Nat) :
    List (Option β) :=
  slots.set position (items[position]?.map compute)

/-- The results for the items of a list, in the order of the list. -/
def collect {items : List α} (schedule : Schedule items.length) (compute : α → β) : List β :=
  (schedule.finished.foldl (finish compute items) (items.map fun _ => none)).filterMap id

section Slots

variable (compute : α → β) (items : List α)

@[simp] theorem length_finish (slots : List (Option β)) (position : Nat) :
    (finish compute items slots position).length = slots.length := List.length_set

/-- Finishing an item fills its slot and no other. -/
theorem getElem?_finish {slots : List (Option β)} (h : slots.length = items.length)
    (position other : Nat) :
    (finish compute items slots position)[other]?
      = if other = position then items[other]?.map (some ∘ compute) else slots[other]? := by
  rw [finish, List.getElem?_set]
  by_cases he : position = other
  · subst he
    rw [if_pos rfl, if_pos rfl]
    by_cases hlt : position < slots.length
    · have hitem : position < items.length := h ▸ hlt
      simp [hlt, hitem]
    · have hitem : ¬ position < items.length := h ▸ hlt
      simp [hlt, hitem]
  · rw [if_neg he, if_neg (Ne.symm he)]

/-- However often and in which order items are finished, exactly their slots are filled. -/
theorem getElem?_finished {slots : List (Option β)} (h : slots.length = items.length)
    (finished : List Nat) (position : Nat) :
    (finished.foldl (finish compute items) slots)[position]?
      = if position ∈ finished then items[position]?.map (some ∘ compute)
        else slots[position]? := by
  induction finished generalizing slots with
  | nil => simp
  | cons first rest ih =>
      rw [List.foldl_cons, ih ((length_finish compute items slots first).trans h),
        getElem?_finish compute items h]
      by_cases hrest : position ∈ rest
      · simp [hrest]
      · by_cases hfirst : position = first
        · simp [hfirst]
        · simp [hrest, hfirst]

end Slots

/-- **What workers collect is what one computes after another.** -/
theorem collect_eq {items : List α} (schedule : Schedule items.length) (compute : α → β) :
    schedule.collect compute = items.map compute := by
  have hslots : (schedule.finished.foldl (finish compute items) (items.map fun _ => none))
      = items.map (some ∘ compute) := by
    apply List.ext_getElem?
    intro position
    rw [getElem?_finished compute items (List.length_map _), List.getElem?_map,
      List.getElem?_map]
    split
    · rfl
    · next hnot =>
        -- a position that is never finished is not a position of the list
        have hout : items.length ≤ position :=
          Nat.le_of_not_lt fun hlt => hnot (schedule.complete position hlt)
        simp [hout]
  rw [collect, hslots, List.filterMap_map]
  simp [Function.comp_def]

end Schedule

namespace Run

/-- Every file merged with what is held for it, and the counters of its merge. -/
def mergeEach (parallel : Bool) (previous : Previous) (files : List File)
    (schedule : Schedule files.length) : List (File × MergeStats) :=
  let merge := fun file => (mergeFile previous file, fileStats previous file)
  if parallel then schedule.collect merge else files.map merge

/-- The model of merged files and the sum of their counters. -/
def gather (merged : List (File × MergeStats)) : Model × MergeStats :=
  merged.foldl (fun held entry => (held.1.insert entry.1, held.2 + entry.2)) (Model.empty, 0)

/-- Runs as configured: loads the former trees, merges the files one after another or side
by side, and puts them together. -/
def regenerate (config : Config) (read : Source) (previous : Previous) (files : List File)
    (schedule : Schedule files.length) : Except RunError Report :=
  match load read config.strict previous files with
  | .error error => .error error
  | .ok (failures, previous) =>
    let gathered := gather (mergeEach config.parallel previous files schedule)
    .ok
      { model := gathered.1
        failures
        stale := gathered.1.stalePaths previous.manifest
        stats := gathered.2 }

theorem mergeEach_eq (parallel : Bool) (previous : Previous) (files : List File)
    (schedule : Schedule files.length) :
    mergeEach parallel previous files schedule
      = files.map fun file => (mergeFile previous file, fileStats previous file) := by
  cases parallel with
  | true => exact schedule.collect_eq _
  | false => rfl

theorem gather_eq (merged : List (File × MergeStats)) :
    gather merged = (Model.ofList (merged.map Prod.fst), .total (merged.map Prod.snd)) := by
  rw [gather, Model.ofList, MergeStats.total]
  suffices h : ∀ (model : Model) (stats : MergeStats),
      merged.foldl (fun held entry => (held.1.insert entry.1, held.2 + entry.2)) (model, stats)
        = ((merged.map Prod.fst).foldl Model.insert model,
            (merged.map Prod.snd).foldl MergeStats.add stats) from h Model.empty 0
  induction merged with
  | nil => exact fun _ _ => rfl
  | cons entry rest ih => exact fun model stats => ih _ _

/-- **How the files are merged does not show.** -/
theorem regenerate_eq (config : Config) (read : Source) (previous : Previous)
    (files : List File) (schedule : Schedule files.length) :
    regenerate config read previous files schedule
      = report read config.strict previous files := by
  rw [regenerate, report]
  cases load read config.strict previous files with
  | error error => rfl
  | ok loaded =>
      simp only [mergeEach_eq, gather_eq, List.map_map, assemble]
      rfl

end Run

end Regeneration
