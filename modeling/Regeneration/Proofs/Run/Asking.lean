import Regeneration.Proofs.Run.ClosedLoop

/-!
# Asking for trees

As long as a source answers the same, it does not matter when a tree of the run before
is asked for, or how often. What is held is what the record describes, and what could not
be loaded is tried again and fails again. So loading the trees of a list of files reports
exactly the records that cannot be used, whatever was asked for before.

Main statements: `Faithful.afterAsking`, `cached_afterAsking` and `load_eq`.
-/

set_option autoImplicit false

namespace Regeneration

namespace Previous

/-- What is known after a tree was asked for. A failure changes nothing. -/
def afterAsk (read : Source) (previous : Previous) (path : String) : Previous :=
  match oldTree read previous path with
  | .ok (_, after) => after
  | .error _ => previous

/-- What is known after trees were asked for, one after another. -/
def afterAsking (read : Source) (previous : Previous) (paths : List String) : Previous :=
  paths.foldl (afterAsk read) previous

/-- What is held is what the records describe. -/
def Faithful (read : Source) (previous : Previous) : Prop :=
  ∀ path tree, previous.held? path = some tree →
    loadRecord read (previous.layout.recordPath path) = .ok tree

theorem faithful_ofSource {read : Source} {layout : Layout} {previous : Previous}
    (h : ofSource read layout = .ok previous) : Faithful read previous := by
  intro path tree hheld
  rw [(ofSource_eq_ok h).2 path] at hheld
  cases hheld

/-- The run before of a first run is opened from a store without files. -/
example (layout : Layout) : ofSource Store.empty.read layout = .ok (empty layout) := rfl

/-- Asking keeps what was loaded, if anything had to be loaded and could be. -/
theorem afterAsk_cases (read : Source) (previous : Previous) (path : String) :
    afterAsk read previous path = previous ∨
      ∃ tree, loadRecord read (previous.layout.recordPath path) = .ok tree ∧
        afterAsk read previous path = previous.keep path tree := by
  rw [afterAsk]
  split
  · next tree after ho =>
      rcases oldTree_eq_ok ho with ⟨-, hafter⟩ | ⟨-, hload, hafter⟩
      · exact .inl hafter
      · exact .inr ⟨tree, hload, hafter⟩
  · exact .inl rfl

@[simp] theorem layout_afterAsk (read : Source) (previous : Previous) (path : String) :
    (afterAsk read previous path).layout = previous.layout := by
  rcases afterAsk_cases read previous path with h | ⟨tree, -, h⟩
  · rw [h]
  · rw [h, keep]

@[simp] theorem manifest_afterAsk (read : Source) (previous : Previous) (path : String) :
    (afterAsk read previous path).manifest = previous.manifest := by
  rcases afterAsk_cases read previous path with h | ⟨tree, -, h⟩
  · rw [h]
  · rw [h, keep]

@[simp] theorem layout_afterAsking (read : Source) (previous : Previous) (paths : List String) :
    (previous.afterAsking read paths).layout = previous.layout := by
  induction paths generalizing previous with
  | nil => rfl
  | cons path rest ih => exact (ih _).trans (layout_afterAsk read previous path)

@[simp] theorem manifest_afterAsking (read : Source) (previous : Previous)
    (paths : List String) :
    (previous.afterAsking read paths).manifest = previous.manifest := by
  induction paths generalizing previous with
  | nil => rfl
  | cons path rest ih => exact (ih _).trans (manifest_afterAsk read previous path)

section Faithful

variable {read : Source} {previous : Previous} (h : Faithful read previous)

include h

theorem Faithful.afterAsk (path : String) : Faithful read (previous.afterAsk read path) := by
  rcases afterAsk_cases read previous path with hafter | ⟨loaded, hload, hafter⟩
  · rw [hafter]
    exact h
  · rw [hafter]
    intro other tree hheld
    rw [held?_keep] at hheld
    split at hheld
    · next hn =>
        cases hheld
        rw [← Layout.recordPath_normalize, hn, Layout.recordPath_normalize]
        exact hload
    · exact h other tree hheld

/-- **Whatever is asked for, what is held is what the records describe.** -/
theorem Faithful.afterAsking (paths : List String) :
    Faithful read (previous.afterAsking read paths) := by
  induction paths generalizing previous with
  | nil => exact h
  | cons path rest ih => exact ih (h.afterAsk path)

/-- Asking answers what the record describes, whether or not it is held. -/
theorem Faithful.oldTree_eq (path : String) :
    oldTree read previous path
      = match loadRecord read (previous.layout.recordPath path) with
        | .ok tree => .ok (tree, previous.afterAsk read path)
        | .error error => .error error := by
  cases hheld : previous.held? path with
  | some tree =>
      -- it is not loaded again, and loading it would give the same tree
      rw [Previous.afterAsk, oldTree_held read hheld, h path tree hheld]
  | none =>
      cases hload : loadRecord read (previous.layout.recordPath path) with
      | ok tree => rw [Previous.afterAsk, oldTree_fresh hheld hload]
      | error error => rw [oldTree, hheld, hload]

theorem Faithful.afterAsk_of_error {path : String} {error : RunError}
    (hload : loadRecord read (previous.layout.recordPath path) = .error error) :
    previous.afterAsk read path = previous := by
  rw [Previous.afterAsk, h.oldTree_eq, hload]

end Faithful

/-! ## What is held after asking -/

/-- What is held stays held. -/
theorem isSome_held?_afterAsk (read : Source) {previous : Previous} (asked : String)
    {path : String} (h : (previous.held? path).isSome) :
    ((previous.afterAsk read asked).held? path).isSome := by
  rcases afterAsk_cases read previous asked with hafter | ⟨tree, -, hafter⟩
  · rw [hafter]
    exact h
  · rw [hafter, held?_keep]
    split
    · rfl
    · exact h

theorem isSome_held?_afterAsking (read : Source) {previous : Previous} (asked : List String)
    {path : String} (h : (previous.held? path).isSome) :
    ((previous.afterAsking read asked).held? path).isSome := by
  induction asked generalizing previous with
  | nil => exact h
  | cons head rest ih => exact ih (isSome_held?_afterAsk read head h)

/-- What was asked for is held if its record can be used. -/
theorem isSome_held?_of_mem {read : Source} {previous : Previous} (h : Faithful read previous)
    {asked : List String} {path : String} {tree : Option Segment} (hm : path ∈ asked)
    (hload : loadRecord read (previous.layout.recordPath path) = .ok tree) :
    ((previous.afterAsking read asked).held? path).isSome := by
  induction asked generalizing previous with
  | nil => cases hm
  | cons head rest ih =>
      rcases List.mem_cons.1 hm with rfl | hrest
      · have hhead : ((previous.afterAsk read path).held? path).isSome := by
          cases hheld : previous.held? path with
          | some held =>
              apply isSome_held?_afterAsk
              rw [hheld]
              rfl
          | none =>
              rw [afterAsk, oldTree_fresh hheld hload, held?_keep, if_pos rfl]
              rfl
        exact isSome_held?_afterAsking read rest hhead
      · apply ih (h.afterAsk head) hrest
        rw [layout_afterAsk]
        exact hload

/-- **The tree found for what was asked for is the one its record describes**, and none
if the record cannot be used. -/
theorem cached_afterAsking {read : Source} {previous : Previous} (h : Faithful read previous)
    {asked : List String} {path : String} (hm : path ∈ asked) :
    (previous.afterAsking read asked).cached path
      = Run.persisted read previous.layout path := by
  have hfinal := h.afterAsking asked path
  rw [layout_afterAsking] at hfinal
  cases hload : loadRecord read (previous.layout.recordPath path) with
  | ok tree =>
      -- something is held, and it can only be what the record describes
      obtain ⟨held, hheld⟩ := Option.isSome_iff_exists.1 (isSome_held?_of_mem h hm hload)
      have hsame := hfinal held hheld
      rw [hload] at hsame
      cases hsame
      rw [cached, hheld, Run.persisted, hload, Option.getD_some]
  | error error =>
      -- nothing is held: it would have been loaded
      have hnone : (previous.afterAsking read asked).held? path = none := by
        rw [Option.eq_none_iff_forall_ne_some]
        intro held hheld
        have hsame := hfinal held hheld
        rw [hload] at hsame
        cases hsame
      rw [cached, hnone, Run.persisted, hload, Option.getD_none]

end Previous

namespace Run

open Previous

/-- The error of loading a path's record, if it cannot be used. -/
def loadError? (read : Source) (layout : Layout) (path : String) : Option RunError :=
  match loadRecord read (layout.recordPath path) with
  | .ok _ => none
  | .error error => some error

/-- The files whose records cannot be used, in order, each with its error. -/
def loadFailures (read : Source) (layout : Layout) (files : List File) : List Failure :=
  files.filterMap fun file => (loadError? read layout file.path).map (Failure.mk file.path)

/-- A strict computation ends with the first failure, if there is one; any other gives its
result. -/
def judge {α : Type} (strict : Bool) (failures : List Failure) (result : α) :
    Except RunError α :=
  match strict, failures with
  | true, failure :: _ => .error failure.error
  | _, _ => .ok result

@[simp] theorem judge_false {α : Type} (failures : List Failure) (result : α) :
    judge false failures result = .ok result := rfl

@[simp] theorem judge_true_cons {α : Type} (failure : Failure) (failures : List Failure)
    (result : α) : judge true (failure :: failures) result = .error failure.error := rfl

@[simp] theorem judge_nil {α : Type} (strict : Bool) (result : α) :
    judge strict [] result = .ok result := by
  cases strict <;> rfl

theorem loadFailures_cons_of_ok {read : Source} {layout : Layout} {file : File}
    {tree : Option Segment} (rest : List File)
    (h : loadRecord read (layout.recordPath file.path) = .ok tree) :
    loadFailures read layout (file :: rest) = loadFailures read layout rest := by
  simp [loadFailures, loadError?, h]

theorem loadFailures_cons_of_error {read : Source} {layout : Layout} {file : File}
    {error : RunError} (rest : List File)
    (h : loadRecord read (layout.recordPath file.path) = .error error) :
    loadFailures read layout (file :: rest)
      = ⟨file.path, error⟩ :: loadFailures read layout rest := by
  simp [loadFailures, loadError?, h]

/-- **Loading asks for every file and reports what cannot be used**, or ends with the
first such file if it is strict. -/
theorem load_eq {read : Source} {previous : Previous} (h : Faithful read previous)
    (strict : Bool) (files : List File) :
    load read strict previous files
      = judge strict (loadFailures read previous.layout files)
          (loadFailures read previous.layout files,
            previous.afterAsking read (files.map File.path)) := by
  induction files generalizing previous with
  | nil => exact (judge_nil strict _).symm
  | cons file rest ih =>
      have hask : previous.afterAsking read ((file :: rest).map File.path)
          = (previous.afterAsk read file.path).afterAsking read (rest.map File.path) := rfl
      rw [load, h.oldTree_eq, hask]
      cases hload : loadRecord read (previous.layout.recordPath file.path) with
      | ok tree =>
          rw [loadFailures_cons_of_ok rest hload]
          have hrest := ih (h.afterAsk file.path)
          rw [layout_afterAsk] at hrest
          exact hrest
      | error error =>
          -- nothing is kept of the failure, so the rest is loaded as if it came first
          rw [loadFailures_cons_of_error rest hload, h.afterAsk_of_error hload]
          cases strict with
          | true => rfl
          | false => simp only [ih h, judge_false, Bool.false_eq_true, if_false]

end Run

end Regeneration
