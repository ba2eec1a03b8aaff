import Regeneration.Layout
import Regeneration.Toml.Document

/-!
# Configuration

A run is configured by a TOML document in which every key is optional and unknown
keys are ignored. The layout is a table, or a list of texts in the order of its
fields; fields that are not given keep their usual values.
-/

set_option autoImplicit false

namespace Regeneration

/-- How runs are made. -/
structure Config where
  layout : Layout := Layout.standard
  /-- Whether files may be merged side by side. -/
  parallel : Bool := true
  /-- Whether an unusable record of the run before ends the run. -/
  strict : Bool := false
  /-- Whether records are written with indentation. -/
  pretty : Bool := false
  deriving DecidableEq, Inhabited, Repr

namespace Config

open Toml (Node Entries)

/-- The configuration used when nothing is configured. -/
def standard : Config := {}

/-- The text of a node. -/
def textOf (name : String) : Node → Except Toml.Error String
  | .scalar (.text value) => .ok value
  | _ => .error (.wrongType name)

/-- The truth value of a node. -/
def truthOf (name : String) : Node → Except Toml.Error Bool
  | .scalar (.boolean value) => .ok value
  | _ => .error (.wrongType name)

/-- The value of a key, or the usual one. -/
def lookup {α : Type} (read : String → Node → Except Toml.Error α) (name : String) (usual : α)
    (entries : Entries) : Except Toml.Error α :=
  match Toml.find? name entries with
  | some node => read name node
  | none => .ok usual

/-- The layout of a table. -/
def layoutOfEntries (entries : Entries) : Except Toml.Error Layout := do
  let directory ← lookup textOf "trace_dir" Layout.standard.directory entries
  let suffix ← lookup textOf "trace_suffix" Layout.standard.suffix entries
  let manifest ← lookup textOf "manifest_file" Layout.standard.manifest entries
  let guidance ← lookup textOf "guidance_file" Layout.standard.guidance entries
  .ok ⟨directory, suffix, manifest, guidance⟩

/-- The text at a place of a list, or the usual one. -/
def itemAt (items : List Node) (index : Nat) (name usual : String) : Except Toml.Error String :=
  match items[index]? with
  | some node => textOf name node
  | none => .ok usual

/-- The layout of a list. -/
def layoutOfItems (items : List Node) : Except Toml.Error Layout := do
  let directory ← itemAt items 0 "trace_dir" Layout.standard.directory
  let suffix ← itemAt items 1 "trace_suffix" Layout.standard.suffix
  let manifest ← itemAt items 2 "manifest_file" Layout.standard.manifest
  let guidance ← itemAt items 3 "guidance_file" Layout.standard.guidance
  .ok ⟨directory, suffix, manifest, guidance⟩

/-- The layout of a node. A moment has no keys that a layout knows. -/
def layoutOf (name : String) : Node → Except Toml.Error Layout
  | .table _ entries => layoutOfEntries entries
  | .array items => layoutOfItems items
  | .scalar .moment => .ok Layout.standard
  | _ => .error (.wrongType name)

/-- The configuration of a document. -/
def ofEntries (entries : Entries) : Except Toml.Error Config := do
  let layout ← lookup layoutOf "layout" standard.layout entries
  let parallel ← lookup truthOf "parallel" standard.parallel entries
  let strict ← lookup truthOf "strict" standard.strict entries
  let pretty ← lookup truthOf "pretty_traces" standard.pretty entries
  .ok ⟨layout, parallel, strict, pretty⟩

/-- Reads a configuration. -/
def ofText (text : String) : Except Toml.Error Config := do
  ofEntries (← Toml.document text)

end Config

end Regeneration
