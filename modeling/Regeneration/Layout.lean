import Regeneration.Path

/-!
# Where records live

The record of a generated file lies below one directory, under the file's own
path and a suffix. The manifest and the guidance document lie in that directory
too.
-/

set_option autoImplicit false

namespace Regeneration

/-- The path conventions of persisted records. -/
structure Layout where
  /-- The directory of all records. -/
  directory : String := "traces"
  /-- What is appended to a file's path to name its record. -/
  suffix : String := ".traces"
  /-- The manifest's file name. -/
  manifest : String := "tracedFiles.json"
  /-- The guidance document's file name. -/
  guidance : String := "guidances.json"
  deriving DecidableEq, Inhabited, Repr

namespace Layout

/-- The conventions used when nothing is configured. -/
def standard : Layout := {}

/-- The path of a generated file's record. -/
def recordPath (layout : Layout) (path : String) : String :=
  layout.directory ++ "/" ++ Path.normalize path ++ layout.suffix

/-- The manifest's path. -/
def manifestPath (layout : Layout) : String := layout.directory ++ "/" ++ layout.manifest

/-- The guidance document's path. -/
def guidancePath (layout : Layout) : String := layout.directory ++ "/" ++ layout.guidance

/-- Spellings of one path have one record. -/
theorem recordPath_normalize (layout : Layout) (path : String) :
    layout.recordPath (Path.normalize path) = layout.recordPath path := by
  simp [recordPath]

end Layout

end Regeneration
