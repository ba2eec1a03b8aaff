import Regeneration.Error
import Regeneration.Merge.Basic
import Regeneration.Record.Decode
import Regeneration.Record.Encode
import Regeneration.Segment.Rendering

/-!
# Generated files

A generated file is a path and a tree. Its text and its record are computed from
the tree when they are wanted.

Main statement: `make_eq_ok_iff`, which paths a file can have.
-/

set_option autoImplicit false

namespace Regeneration

/-- A generated file: where it goes and what it is. -/
structure File where
  path : String
  tree : Segment

namespace File

instance : Inhabited File := ⟨⟨"", default⟩⟩

/-- The file of a tree, if the path may name an output. -/
def make (path : String) (tree : Segment) : Except RunError File :=
  match Path.checked path with
  | .error error => .error error
  | .ok path => .ok ⟨path, tree⟩

/-- The text of a file. -/
def content (file : File) : String := file.tree.render

/-- The persisted description of a file's tree. -/
def record (file : File) : Record := .ofSegment file.tree

/-- The text of a file's record. -/
def recordText (file : File) (pretty : Bool) : String := file.record.text pretty

/-- The file after merging it with the tree it had before. -/
def merged (file : File) (before : Option Segment) : File :=
  { file with tree := file.tree.merge before }

/-- The file that the text of a record describes. -/
def ofRecordText (path text : String) : Except RunError File :=
  match Record.ofText text with
  | .error error => .error (.malformed path error)
  | .ok record =>
    match record.toSegment with
    | .error error => .error (.invalidTree path error)
    | .ok tree => make path tree

/-- A file keeps the normalized spelling of its path. -/
theorem make_eq_ok_iff {path : String} {tree : Segment} {file : File} :
    make path tree = .ok file ↔ Path.checked? path = some file.path ∧ file.tree = tree := by
  rw [make, Path.checked]
  cases h : Path.checked? path with
  | none => simp
  | some checked =>
      obtain ⟨filePath, fileTree⟩ := file
      simp only [Except.ok.injEq, mk.injEq, Option.some.injEq]
      exact and_congr_right fun _ => eq_comm

@[simp] theorem path_merged (file : File) (before : Option Segment) :
    (file.merged before).path = file.path := rfl

end File

end Regeneration
