import Regeneration.Command.Arguments

/-!
# The program

The program reads the files a command may need, lets the command prepare its work
from them, writes the outputs and prints. All decisions are made by the command.
-/

set_option autoImplicit false

namespace Regeneration.Program

/-- The fault that a failed operation tells of. Some operations negate the
system's number of the fault. -/
def faultOf : IO.Error → DiskFault
  | .noFileOrDirectory .. => .notFound
  | .alreadyExists .. => .alreadyExists
  | .inappropriateType _ code details =>
    match code.toInt32.toInt.natAbs with
    | 20 => .notDirectory
    | 21 => .isDirectory
    | _ => .other details
  | error => .other (toString error)

/-- Runs an operation and keeps its fault. -/
def attempt {α : Type} (operation : IO α) : IO (Except DiskFault α) := do
  match ← operation.toBaseIO with
  | .ok result => return .ok result
  | .error error => return .error (faultOf error)

/-- Reads a file as text. -/
def readText (path : DiskPath) : IO (Except DiskFault String) := do
  match ← attempt (IO.FS.readBinFile path.text) with
  | .error fault => return .error fault
  | .ok bytes =>
    match String.fromUTF8? bytes with
    | some text => return .ok text
    | none => return .error .invalidText

/-- What was read so far. -/
abbrev Known := List (DiskPath × Except DiskFault String)

/-- Reading from what was read. -/
def Known.reading (known : Known) : Reading := fun path =>
  (known.lookup path).getD (.error .notFound)

/-- Reads files. -/
def readEach (paths : List DiskPath) : IO Known :=
  paths.mapM fun path => do return (path, ← readText path)

/-- Creates a directory and the missing ones above it, or leaves the one that is
there. If something is in the way, the fault is that of creating the directory. -/
def ensureDirectory (path : DiskPath) : IO (Except DiskFault Unit) := do
  if path.isEmpty then return .ok ()
  match ← attempt (IO.FS.createDir path.text) with
  | .ok () => return .ok ()
  | .error fault =>
    match fault, ← attempt (IO.FS.createDirAll path.text) with
    | _, .ok () => return .ok ()
    | .notFound, .error fault => return .error fault
    | fault, .error _ => return .error fault

/-- Writes an output below a directory and creates the directories above it. -/
def writeOutput (root : DiskPath) (output : Output) : IO (Except RunError Unit) := do
  let target := root.join (.ofText output.path)
  if let some parent := target.parent? then
    if let .error fault ← ensureDirectory parent then
      return .error (.disk parent.text fault)
  match ← attempt (IO.FS.writeFile target.text output.contents) with
  | .error fault => return .error (.disk target.text fault)
  | .ok () => return .ok ()

/-- Writes outputs in order, up to the first that fails. -/
def writeEach (root : DiskPath) : List Output → IO (Except RunError Unit)
  | [] => return .ok ()
  | output :: rest => do
    match ← writeOutput root output with
    | .error error => return .error error
    | .ok () => writeEach root rest

/-- Carries a command out. -/
def perform (command : Command) : IO (Except CommandError String) := do
  let given ← readEach command.givenPaths
  let former ← readEach (command.formerPaths (Known.reading given))
  match command.prepare (Known.reading (given ++ former)) with
  | .error error => return .error error
  | .ok work =>
    match Disk.checkOutputs work.outputs with
    | .error error => return .error (.failed error)
    | .ok outputs =>
      match ← writeEach work.root outputs with
      | .error error => return .error (.failed error)
      | .ok () => return .ok work.text

/-- Does what was asked for. -/
def outcome : Invocation → IO Outcome
  | .command asked => return .ofResult (← perform asked)
  | .version => return ⟨0, Invocation.versionText, ""⟩
  | .help => return ⟨0, Invocation.helpText, ""⟩
  | .misuse => return ⟨2, "", Invocation.helpText⟩

end Regeneration.Program

open Regeneration in
/-- The program. -/
def main (arguments : List String) : IO UInt32 := do
  let outcome ← Program.outcome (Invocation.ofArguments arguments)
  IO.print outcome.out
  IO.eprint outcome.err
  return outcome.exit.toUInt32
