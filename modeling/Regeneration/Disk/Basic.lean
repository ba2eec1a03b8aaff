import Regeneration.Disk.Fault
import Regeneration.Disk.Path
import Regeneration.Keyed

/-!
# Disks

A disk has directories and files at locations. Paths are followed name by name
from the root or from the current directory; every name but the last has to lead
to a directory. There are no links, so every place has one location apart from
`.` and `..` on the way.

What is at a location is not all that decides whether something can be created or
written: there may be no permission, no space, a name that is too long, a device
that fails. A disk therefore comes with the mishaps that the operations to come
will meet, one after another. Any fault may come at any of them, and a write that
fails may have emptied its file before, or have written a part of it.

Reading changes nothing and meets no mishaps: `readText` tells what there is to read.

Main statements: `get?_set` (what is found after something was put at a location) and
`ensureUpTo_eq` (the bound on the directories above is no limit).
-/

set_option autoImplicit false

namespace Regeneration

/-- What a file holds. -/
inductive Contents where
  | text (content : String)
  /-- Bytes that are no text. -/
  | binary (bytes : ByteArray)

/-- The contents with the given bytes. -/
def Contents.ofBytes (bytes : ByteArray) : Contents :=
  match String.fromUTF8? bytes with
  | some content => .text content
  | none => .binary bytes

/-- What can be at a location. -/
inductive Entry where
  | directory
  | file (contents : Contents)

/-- The names from the root to a place. -/
abbrev Location := List String

/-- An operation that goes wrong. -/
structure Mishap where
  fault : DiskFault
  /-- What a write leaves in its file, if it got as far as changing it. -/
  left : Option Contents := none

/-- Directories and files. -/
structure Disk where
  /-- All places but the root, the newest first. -/
  entries : List (Location × Entry) := []
  /-- The directory from which relative paths are followed. -/
  current : Location := []
  /-- What the operations to come will meet that create a directory, look for one or write
  a file, in their order; no mishaps behind the end. -/
  mishaps : List (Option Mishap) := []

namespace Disk

instance : Inhabited Disk := ⟨{}⟩

/-- What is at a location. -/
def get? (disk : Disk) (location : Location) : Option Entry :=
  if location.isEmpty then some .directory
  else (disk.entries.find? fun entry => entry.1 == location).map Prod.snd

/-- Puts something at a location. -/
def set (disk : Disk) (location : Location) (entry : Entry) : Disk :=
  { disk with entries :=
    (location, entry) :: disk.entries.filter fun other => other.1 != location }

/-- The location a name leads to. -/
def step (location : Location) (name : String) : Location :=
  if name = "." then location
  else if name = ".." then location.dropLast
  else location ++ [name]

/-- Follows names from a location; all but the last have to be directories. -/
def follow (disk : Disk) : Location → List String → Except DiskFault Location
  | location, [] => .ok location
  | location, name :: rest =>
    match disk.get? location with
    | none => .error .notFound
    | some (.file _) => .error .notDirectory
    | some .directory => follow disk (step location name) rest

/-- The location that a path leads to; there need not be anything. -/
def locate (disk : Disk) (path : DiskPath) : Except DiskFault Location :=
  if path.isEmpty then .error .notFound
  else if path.hasNull then .error (.other "file name contained an unexpected NUL byte")
  else follow disk (if path.isAbsolute then [] else disk.current) path.names

/-- Whether a path leads to a directory. -/
def isDirectory (disk : Disk) (path : DiskPath) : Bool :=
  match disk.locate path with
  | .error _ => false
  | .ok location =>
    match disk.get? location with
    | some .directory => true
    | _ => false

/-- The location of the file that a path leads to, or at which there may be one. A
path with a slash at its end can name no file. -/
def locateFile (disk : Disk) (path : DiskPath) : Except DiskFault Location :=
  match disk.locate path with
  | .error fault => .error fault
  | .ok location =>
    match disk.get? location with
    | some .directory => .error .isDirectory
    | _ => if path.endsInSlash then .error .isDirectory else .ok location

/-- What the next operation meets. -/
def mishap? (disk : Disk) : Option Mishap := disk.mishaps.head?.join

/-- The disk behind an operation that changed nothing. -/
def passed (disk : Disk) : Disk := { disk with mishaps := disk.mishaps.tail }

/-- Reads a file as text. -/
def readText (disk : Disk) (path : DiskPath) : Except DiskFault String :=
  match disk.locate path with
  | .error fault => .error fault
  | .ok location =>
    match disk.get? location with
    | none => .error .notFound
    | some .directory => .error .isDirectory
    | some (.file contents) =>
      if path.endsInSlash then .error .notDirectory
      else
        match contents with
        | .text content => .ok content
        | .binary _ => .error .invalidText

/-- Writes a file, a new one or over an old one. A mishap may leave something else
in that file, and nothing anywhere else. -/
def write (disk : Disk) (path : DiskPath) (contents : Contents) :
    Except DiskFault Unit × Disk :=
  match disk.mishap?, disk.locateFile path with
  | none, .ok location => (.ok (), disk.passed.set location (.file contents))
  | none, .error fault => (.error fault, disk.passed)
  | some mishap, .error _ => (.error mishap.fault, disk.passed)
  | some mishap, .ok location =>
    match mishap.left with
    | none => (.error mishap.fault, disk.passed)
    | some left => (.error mishap.fault, disk.passed.set location (.file left))

/-- Creates a directory where there is nothing yet. -/
def createDirectory (disk : Disk) (path : DiskPath) : Except DiskFault Unit × Disk :=
  match disk.mishap?, disk.locate path with
  | some mishap, _ => (.error mishap.fault, disk.passed)
  | none, .error fault => (.error fault, disk.passed)
  | none, .ok location =>
    match disk.get? location with
    | some _ => (.error .alreadyExists, disk.passed)
    | none => (.ok (), disk.passed.set location .directory)

/-- Passes over a directory that could not be created if one is seen there. Where
looking goes wrong none is seen. -/
def orExisting (path : DiskPath) : Except DiskFault Unit × Disk → Except DiskFault Unit × Disk
  | (.ok (), disk) => (.ok (), disk)
  | (.error fault, disk) =>
    (if disk.mishap?.isNone && disk.isDirectory path then .ok () else .error fault, disk.passed)

/-- Creates a directory below existing ones, or leaves the one that is there. -/
def ensureLast (disk : Disk) (path : DiskPath) : Except DiskFault Unit × Disk :=
  orExisting path (disk.createDirectory path)

/-- Creates a directory and the missing ones above it; the number bounds the
directories above. What was created stays when a later one fails. -/
def ensureUpTo : Nat → Disk → DiskPath → Except DiskFault Unit × Disk
  | 0, disk, path => disk.ensureLast path
  | bound + 1, disk, path =>
    if path.isEmpty then (.ok (), disk)
    else
      match disk.createDirectory path with
      | (.error .notFound, disk) =>
        match path.parent? with
        | none => (.error (.other "failed to create whole tree"), disk)
        | some parent =>
          match ensureUpTo bound disk parent with
          | (.error fault, disk) => (.error fault, disk)
          | (.ok (), disk) => disk.ensureLast path
      | made => orExisting path made

/-- Creates a directory and the missing ones above it. -/
def ensureDirectory (disk : Disk) (path : DiskPath) : Except DiskFault Unit × Disk :=
  ensureUpTo (path.pieces.length + 1) disk path

/-- Any bound above the number of pieces gives the same, as the path above has fewer. -/
theorem ensureUpTo_eq {bound other : Nat} {path : DiskPath} (h : path.pieces.length < bound)
    (ho : path.pieces.length < other) (disk : Disk) :
    ensureUpTo bound disk path = ensureUpTo other disk path := by
  induction bound generalizing other disk path with
  | zero => exact absurd h (Nat.not_lt_zero _)
  | succ bound ih =>
      cases other with
      | zero => exact absurd ho (Nat.not_lt_zero _)
      | succ other =>
          rw [ensureUpTo, ensureUpTo]
          cases hp : path.parent? with
          | none => rfl
          | some parent =>
              have hshorter := DiskPath.length_pieces_parent? hp
              have hsame : ∀ disk, ensureUpTo bound disk parent = ensureUpTo other disk parent :=
                ih (by omega) (by omega)
              simp only [hsame]

/-- An operation that changed nothing leaves what was there. -/
@[simp] theorem get?_passed (disk : Disk) (location : Location) :
    disk.passed.get? location = disk.get? location := rfl

/-- What is found after something was put at a location. -/
theorem get?_set (disk : Disk) {location : Location} (entry : Entry) (h : location ≠ [])
    (other : Location) :
    (disk.set location entry).get? other
      = if other = location then some entry else disk.get? other := by
  by_cases ho : other = location
  · simp [get?, set, ho, h]
  · have hne : ¬ location = other := fun e => ho e.symm
    rw [if_neg ho, get?, get?, set]
    split
    · rfl
    · simp only [List.find?_cons, beq_eq_false_iff_ne.2 hne]
      congr 1
      rw [List.find?_filter]
      congr 1
      funext item
      by_cases hi : item.1 = other
      · simp [hi, ho]
      · simp [hi]

end Disk

end Regeneration
