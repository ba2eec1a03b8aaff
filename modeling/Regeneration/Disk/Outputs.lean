import Regeneration.Disk.Basic
import Regeneration.Model
import Regeneration.Store

/-!
# Runs on a disk

The outputs of a run are written below one directory, and the run after it reads
its records there. All paths are looked at before anything is written. When
writing fails midway, what was written before stays.

Main statements: `writeAll_of_unsafe` (an unsafe path leaves the disk as it was)
and `listing_increasing` (the order of a listing).
-/

set_option autoImplicit false

namespace Regeneration

/-- How files are read as text. Any file may be unreadable. -/
abbrev Reading := DiskPath → Except DiskFault String

/-- Reading below a directory, where a file may be missing. -/
def Reading.below (read : Reading) (root : DiskPath) : Source := fun path =>
  match read (root.join (.ofText path)) with
  | .ok text => .ok (some text)
  | .error .notFound => .ok none
  | .error fault => .error fault

namespace Disk

/-- The outputs under their checked paths, or the first path that is unsafe. -/
def checkOutputs (outputs : List Output) : Except RunError (List Output) :=
  outputs.mapM fun output => do .ok { output with path := ← Path.checked output.path }

/-- Writes a file and creates the directories above it. -/
def writeTarget (disk : Disk) (target : DiskPath) (text : String) :
    Except RunError Unit × Disk :=
  match disk.write target (.text text) with
  | (.error fault, disk) => (.error (.disk target.text fault), disk)
  | (.ok (), disk) => (.ok (), disk)

/-- Writes an output below a directory. -/
def writeOutput (root : DiskPath) (disk : Disk) (output : Output) :
    Except RunError Unit × Disk :=
  let target := root.join (.ofText output.path)
  match target.parent? with
  | none => disk.writeTarget target output.contents
  | some parent =>
    match disk.ensureDirectory parent with
    | (.error fault, disk) => (.error (.disk parent.text fault), disk)
    | (.ok (), disk) => disk.writeTarget target output.contents

/-- Writes outputs in order, up to the first that fails. -/
def writeEach (root : DiskPath) : Disk → List Output → Except RunError Unit × Disk
  | disk, [] => (.ok (), disk)
  | disk, output :: rest =>
    match writeOutput root disk output with
    | (.error error, disk) => (.error error, disk)
    | (.ok (), disk) => writeEach root disk rest

/-- Writes outputs below a directory, unless one of their paths is unsafe. -/
def writeAll (root : DiskPath) (disk : Disk) (outputs : List Output) :
    Except RunError Unit × Disk :=
  match checkOutputs outputs with
  | .error error => (.error error, disk)
  | .ok outputs => writeEach root disk outputs

/-- An empty disk with a current directory. -/
def fresh (current : Location) : Disk :=
  { entries :=
      (List.range current.length).map fun above => (current.take (above + 1), .directory)
    current := current }

/-- The disk with a file, or a directory if there are no contents, and what it
needs above it. What cannot be put there is left out. -/
def place (disk : Disk) (path : DiskPath) (contents : Option Contents) : Disk :=
  match contents with
  | none => (disk.ensureDirectory path).2
  | some contents =>
    let disk := match path.parent? with
      | some parent => (disk.ensureDirectory parent).2
      | none => disk
    (disk.write path contents).2

/-- The path of a location below the current directory. -/
def pathBelow? (disk : Disk) (location : Location) : Option String :=
  if disk.current.isPrefixOf location && location != disk.current then
    some (String.ofList (['/'].intercalate
      ((location.drop disk.current.length).map String.toList)))
  else none

/-- Whether something lies directly in a location. -/
def isInhabited (disk : Disk) (location : Location) : Bool :=
  disk.entries.any fun entry => entry.1 != [] && entry.1.dropLast == location

/-- The line of a listing for an entry: files and empty directories have one. -/
def listed? (disk : Disk) (entry : Location × Entry) : Option (String × Option Contents) :=
  match disk.pathBelow? entry.1, entry.2 with
  | none, _ => none
  | some path, .file contents => some (path, some contents)
  | some path, .directory => if disk.isInhabited entry.1 then none else some (path, none)

/-- The files and empty directories below the current directory, by path. -/
def listing (disk : Disk) : List (String × Option Contents) :=
  Sorted.ofList Prod.fst (disk.entries.filterMap disk.listed?)

/-- When a path is unsafe nothing is written. -/
theorem writeAll_of_unsafe {root : DiskPath} {disk : Disk} {outputs : List Output}
    {error : RunError} (h : checkOutputs outputs = .error error) :
    writeAll root disk outputs = (.error error, disk) := by
  rw [writeAll, h]

theorem listing_increasing (disk : Disk) : Sorted.Increasing Prod.fst disk.listing :=
  Sorted.increasing_ofList _

end Disk

end Regeneration
