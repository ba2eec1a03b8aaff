import Regeneration.Json.Document
import Regeneration.Json.Writer
import Regeneration.Path
import Regeneration.Sorted

/-!
# Manifests

A manifest lists the files that have records: normalized paths in order, each
once. It is kept as a JSON object with one member.

Main statements: `contains_iff` (what is listed is recorded in any spelling),
`mem_insert` (what recording adds) and `increasing_ofList` (the order of the list).
-/

set_option autoImplicit false

namespace Regeneration

/-- The paths that have records. -/
structure Manifest where
  paths : List String := []
  deriving DecidableEq, Inhabited, Repr

namespace Manifest

/-- The manifest without paths. -/
def empty : Manifest := {}

/-- Records a path. -/
def insert (manifest : Manifest) (path : String) : Manifest :=
  ⟨Sorted.put id (Path.normalize path) manifest.paths⟩

/-- Whether a path is recorded. -/
def contains (manifest : Manifest) (path : String) : Bool :=
  manifest.paths.contains (Path.normalize path)

/-- The manifest of some paths. -/
def ofList (paths : List String) : Manifest := paths.foldl insert empty

/-- Reads a manifest: an object with the listed paths, or an array that holds
nothing but their list. -/
def reader (text : List Char) : Except Json.Fault (List String × List Char) :=
  Json.document
    (fun text => do
      let (held, rest) ← Json.fields
        (fun name =>
          if name = "tracedFiles" then some fun held => Json.field name held Json.texts
          else none)
        none text
      Json.required "tracedFiles" held rest)
    (fun text => do
      match ← Json.nextElement true text with
      | .stop rest => .error ⟨.wrongLength 0, .here, rest⟩
      | .more rest =>
        let (paths, rest) ← Json.texts rest
        .ok (paths, ← Json.endList rest))
    text

/-- Reads the text of a manifest; the paths may be in any spelling and order. -/
def ofText (text : String) : Except Json.Error Manifest := do
  .ok (ofList (← Json.readAll reader text))

/-- The manifest as a JSON value. -/
def toValue (manifest : Manifest) : Json.Value :=
  .object [("tracedFiles", .array (manifest.paths.map .string))]

/-- The text of a manifest. -/
def text (manifest : Manifest) : String := manifest.toValue.compact

/-- A path is recorded if its normalized spelling is listed. -/
theorem contains_iff {manifest : Manifest} {path : String} :
    manifest.contains path = true ↔ Path.normalize path ∈ manifest.paths :=
  List.contains_iff_mem

/-- Recording a path adds its normalized spelling and nothing else. -/
theorem mem_insert {manifest : Manifest} {path other : String} :
    other ∈ (manifest.insert path).paths ↔
      other = Path.normalize path ∨ other ∈ manifest.paths := by
  have h : other ∈ (Sorted.put id (Path.normalize path) manifest.paths).map id ↔
      other = id (Path.normalize path) ∨ other ∈ manifest.paths.map id := Sorted.mem_keys_put
  rwa [List.map_id, List.map_id] at h

/-- The paths of a manifest are in order. -/
theorem increasing_ofList (paths : List String) :
    Sorted.Increasing id (ofList paths).paths := by
  suffices h : ∀ manifest : Manifest, Sorted.Increasing id manifest.paths →
      Sorted.Increasing id (paths.foldl insert manifest).paths from
    h empty List.Pairwise.nil
  induction paths with
  | nil => exact fun _ h => h
  | cons path rest ih => exact fun manifest h => ih _ (Sorted.increasing_put h)

end Manifest

end Regeneration
