import Regeneration.Disk.Fault
import Regeneration.Json.Error
import Regeneration.Path
import Regeneration.Segment.Error
import Regeneration.Toml.Table

/-!
# What can go wrong in a run

Errors name the file they are about and keep their cause.
-/

set_option autoImplicit false

namespace Regeneration

/-- Causes of failure while loading, merging or writing. -/
inductive RunError where
  /-- A file could not be read or written. -/
  | disk (path : String) (fault : DiskFault)
  /-- A persisted text is not JSON of the shape wanted. -/
  | malformed (path : String) (error : Json.Error)
  /-- A record describes a tree with equal siblings. -/
  | invalidTree (path : String) (error : SegmentError)
  /-- A path may not name an output. -/
  | unsafePath (path : String)
  /-- The configuration does not read. -/
  | config (error : Toml.Error)
  deriving DecidableEq, Repr

namespace RunError

/-- The text of the error behind an error, if there is one. -/
def cause? : RunError → Option String
  | .disk _ fault => some fault.message
  | .malformed _ error => some error.message
  | .invalidTree _ error => some error.message
  | .unsafePath _ => none
  | .config _ => none

/-- The text of an error. -/
def message : RunError → String
  | .disk path fault => s!"io error on {path}: {fault.message}"
  | .malformed path error => s!"malformed trace {path}: {error.message}"
  | .invalidTree path error => s!"invalid tree in {path}: {error.message}"
  | .unsafePath path =>
    s!"unsafe output path '{path}': must be relative and stay below the output directory"
  | .config error => s!"config error: {error.message}"

end RunError

/-- The normalized path, refused if it may not name an output. -/
def Path.checked (path : String) : Except RunError String :=
  match Path.checked? path with
  | some checked => .ok checked
  | none => .error (.unsafePath path)

end Regeneration
