import Regeneration.Config
import Regeneration.Previous

/-!
# Runs

A run merges every generated file with the tree it had before. A file whose
former record cannot be used is generated fresh and the failure is reported, or
the run ends with it if runs are strict. Only then are the files merged.

Of two generated files with one path the later is kept, while both count for the
statistics.

Main statement: `stale_run`, what a run reports as stale.
-/

set_option autoImplicit false

namespace Regeneration

/-- A file whose former record could not be used. -/
structure Failure where
  path : String
  error : RunError
  deriving DecidableEq, Repr

/-- What came of a run. -/
structure Report where
  model : Model := Model.empty
  failures : List Failure := []
  /-- The paths that had records and are no longer generated. -/
  stale : List String := []
  stats : MergeStats := 0

namespace Report

instance : Inhabited Report := ⟨{}⟩

/-- Whether every former record could be used. -/
def isClean (report : Report) : Bool := report.failures.isEmpty

/-- What a run has to write. -/
def outputs (report : Report) (config : Config) : List Output :=
  report.model.outputs config.layout config.pretty

/-- The report with a guidance document, if there is one. -/
def withGuidance (report : Report) (guidance : Option Json.Value) : Report :=
  match guidance with
  | some guidance => { report with model := report.model.withGuidance guidance }
  | none => report

end Report

namespace Run

/-- Loads the former trees of all files. Failures are collected, or end the
loading if it is strict. -/
def load (read : Source) (strict : Bool) :
    Previous → List File → Except RunError (List Failure × Previous)
  | previous, [] => .ok ([], previous)
  | previous, file :: rest =>
    match Previous.oldTree read previous file.path with
    | .ok (_, previous) => load read strict previous rest
    | .error error =>
      if strict then .error error
      else
        match load read strict previous rest with
        | .error error => .error error
        | .ok (failures, previous) => .ok (⟨file.path, error⟩ :: failures, previous)

/-- A file merged with what was loaded for it. -/
def mergeFile (previous : Previous) (file : File) : File :=
  file.merged (previous.cached file.path)

/-- The counters of merging a file. -/
def fileStats (previous : Previous) (file : File) : MergeStats :=
  file.tree.mergeStats (previous.cached file.path)

/-- The report of merging files with what was loaded for them. -/
def assemble (previous : Previous) (failures : List Failure) (files : List File) : Report :=
  let model := Model.ofList (files.map (mergeFile previous))
  { model
    failures
    stale := model.stalePaths previous.manifest
    stats := .total (files.map (fileStats previous)) }

/-- Runs. -/
def report (read : Source) (strict : Bool) (previous : Previous) (files : List File) :
    Except RunError Report :=
  match load read strict previous files with
  | .error error => .error error
  | .ok (failures, previous) => .ok (assemble previous failures files)

/-- Loading changes nothing of the manifest. -/
theorem manifest_load {read : Source} {strict : Bool} {previous after : Previous}
    {files : List File} {failures : List Failure}
    (h : load read strict previous files = .ok (failures, after)) :
    after.manifest = previous.manifest := by
  induction files generalizing previous failures after with
  | nil =>
      simp only [load, Except.ok.injEq, Prod.mk.injEq] at h
      rw [h.2]
  | cons file rest ih =>
      rw [load] at h
      split at h
      · next tree next ho =>
          have hm : next.manifest = previous.manifest := by
            rw [Previous.oldTree] at ho
            split at ho
            · simp only [Except.ok.injEq, Prod.mk.injEq] at ho
              rw [ho.2]
            · split at ho
              · simp at ho
              · simp only [Except.ok.injEq, Prod.mk.injEq] at ho
                rw [← ho.2, Previous.keep]
          rw [ih h, hm]
      · split at h
        · simp at h
        · split at h
          · simp at h
          · next hl =>
              simp only [Except.ok.injEq, Prod.mk.injEq] at h
              rw [← h.2, ih hl]

/-- What a run reports as stale was recorded before and is not in its model. -/
theorem stale_run {read : Source} {strict : Bool} {previous : Previous} {files : List File}
    {result : Report} (h : report read strict previous files = .ok result) :
    result.stale = result.model.stalePaths previous.manifest := by
  rw [report] at h
  split at h
  · simp at h
  · next hl =>
      simp only [Except.ok.injEq] at h
      rw [← h, assemble, manifest_load hl]

end Run

end Regeneration
