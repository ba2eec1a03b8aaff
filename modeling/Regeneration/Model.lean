import Regeneration.File
import Regeneration.Layout
import Regeneration.Manifest

/-!
# The files of a run

A model holds the files of a run by path, in order, and perhaps a guidance
document. It tells what has to be written: each file's text and record, then the
manifest, then the guidance.

Main statements: `get?_insert` (what is found after a file was put in) and
`increasing_ofList` (the order of the files).
-/

set_option autoImplicit false

namespace Regeneration

/-- Something to be written. -/
structure Output where
  path : String
  contents : String
  deriving DecidableEq, Inhabited, Repr

/-- The files of a run. -/
structure Model where
  files : List File := []
  guidance : Option Json.Value := none

namespace Model

/-- The model without files. -/
def empty : Model := {}

instance : Inhabited Model := ⟨empty⟩

/-- Puts a file in, instead of a file with its path. -/
def insert (model : Model) (file : File) : Model :=
  { model with files := Sorted.put File.path file model.files }

/-- The model of some files; of files with one path the last is kept. -/
def ofList (files : List File) : Model := files.foldl insert empty

/-- The file at a path, in any spelling. -/
def get? (model : Model) (path : String) : Option File :=
  Keyed.find? File.path (Path.normalize path) model.files

/-- The paths of the files, in order. -/
def paths (model : Model) : List String := model.files.map File.path

/-- The model with a guidance document. -/
def withGuidance (model : Model) (guidance : Json.Value) : Model :=
  { model with guidance := some guidance }

/-- The manifest of the files. -/
def manifest (model : Model) : Manifest := .ofList model.paths

/-- The recorded paths that have no file any more. -/
def stalePaths (model : Model) (recorded : Manifest) : List String :=
  recorded.paths.filter fun path => !model.paths.contains path

/-- A file's text and its record. -/
def fileOutputs (layout : Layout) (pretty : Bool) (file : File) : List Output :=
  [⟨file.path, file.content⟩, ⟨layout.recordPath file.path, file.recordText pretty⟩]

/-- The guidance document, if there is one. -/
def guidanceOutputs (model : Model) (layout : Layout) : List Output :=
  match model.guidance with
  | some guidance => [⟨layout.guidancePath, guidance.compact⟩]
  | none => []

/-- All that has to be written, in order. -/
def outputs (model : Model) (layout : Layout) (pretty : Bool) : List Output :=
  model.files.flatMap (fileOutputs layout pretty)
    ++ [⟨layout.manifestPath, model.manifest.text⟩]
    ++ model.guidanceOutputs layout

theorem increasing_ofList (files : List File) :
    Sorted.Increasing File.path (ofList files).files := by
  suffices h : ∀ model : Model, Sorted.Increasing File.path model.files →
      Sorted.Increasing File.path (files.foldl insert model).files from
    h empty List.Pairwise.nil
  induction files with
  | nil => exact fun _ h => h
  | cons file rest ih => exact fun model h => ih _ (Sorted.increasing_put h)

/-- A file that was put in is found by its path; other paths find what they
found before. -/
theorem get?_insert {model : Model} (h : Sorted.Increasing File.path model.files) (file : File)
    (path : String) :
    (model.insert file).get? path
      = if Path.normalize path = file.path then some file else model.get? path :=
  Sorted.find?_put file model.files (Path.normalize path) h

/-- What is stale was recorded and has no file. -/
theorem mem_stalePaths {model : Model} {recorded : Manifest} {path : String} :
    path ∈ model.stalePaths recorded ↔ path ∈ recorded.paths ∧ path ∉ model.paths := by
  simp [stalePaths, List.mem_filter]

end Model

end Regeneration
