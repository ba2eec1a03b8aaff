/-!
# Faults of files

The ways in which reading, writing or creating something on a disk can fail.
-/

set_option autoImplicit false

namespace Regeneration

/-- Why a file or directory could not be read, written or created. -/
inductive DiskFault where
  | notFound
  | alreadyExists
  | notDirectory
  | isDirectory
  /-- The contents are no text. -/
  | invalidText
  /-- Some other fault, with the system's own words. -/
  | other (description : String)
  deriving DecidableEq, Repr

/-- The text of a fault. -/
def DiskFault.message : DiskFault → String
  | .notFound => "No such file or directory (os error 2)"
  | .alreadyExists => "File exists (os error 17)"
  | .notDirectory => "Not a directory (os error 20)"
  | .isDirectory => "Is a directory (os error 21)"
  | .invalidText => "stream did not contain valid UTF-8"
  | .other description => description

end Regeneration
