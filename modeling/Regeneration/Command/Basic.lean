import Regeneration.Disk.Outputs
import Regeneration.Run.Report
import Regeneration.Skeleton

/-!
# Commands

`run` merges a skeleton with what the run before left below a directory and
writes the results there, `render` shows the text that a record describes, and
`stale` lists what a run would no longer generate. A command first reads what it
needs and prepares all it has to do; only then is anything written.

Main statement: `performReading_of_refused` (a command that cannot be prepared
writes nothing).
-/

set_option autoImplicit false

namespace Regeneration

/-- Where a run finds what it needs. -/
structure Inputs where
  skeleton : String
  out : String
  config : Option String
  deriving DecidableEq, Repr

/-- What the program can be asked to do. -/
inductive Command where
  | run (inputs : Inputs) (strict : Bool)
  | render (record : String)
  | stale (inputs : Inputs)
  deriving DecidableEq, Repr

/-- Why a command failed. -/
inductive CommandError where
  /-- One of the files it was given could not be read. -/
  | reading (what path : String) (fault : DiskFault)
  | failed (error : RunError)
  deriving DecidableEq, Repr

namespace CommandError

/-- The text of an error. -/
def message : CommandError → String
  | .reading what path _ => s!"reading {what} {path}"
  | .failed error => error.message

/-- The text of the error behind an error, if there is one. -/
def cause? : CommandError → Option String
  | .reading _ _ fault => some fault.message
  | .failed error => error.cause?

/-- A text whose further lines are indented like its first. -/
def indented (text : String) : String :=
  String.ofList (text.toList.flatMap fun c =>
    if c = '\n' then '\n' :: [' ', ' ', ' ', ' '] else [c])

/-- What is printed for an error. -/
def report (error : CommandError) : String :=
  match error.cause? with
  | none => "Error: " ++ error.message ++ "\n"
  | some cause =>
    "Error: " ++ error.message ++ "\n\nCaused by:\n    " ++ indented cause ++ "\n"

end CommandError

/-- What a command has to do once it has read everything. -/
structure Work where
  /-- The directory to write below. -/
  root : DiskPath := default
  outputs : List Output := []
  /-- What to print in the end. -/
  text : String

namespace Command

/-- The configuration at a path, or the usual one without a path. -/
def loadConfig (read : Reading) : Option String → Except RunError Config
  | none => .ok Config.standard
  | some path =>
    match read (.ofText path) with
    | .error fault => .error (.disk path fault)
    | .ok text =>
      match Config.ofText text with
      | .error error => .error (.config error)
      | .ok config => .ok config

/-- Lifts the failure of a run. -/
def lift {α : Type} : Except RunError α → Except CommandError α
  | .ok result => .ok result
  | .error error => .error (.failed error)

/-- Reads one of the files that were given. -/
def readGiven (read : Reading) (what path : String) : Except CommandError String :=
  match read (.ofText path) with
  | .error fault => .error (.reading what path fault)
  | .ok text => .ok text

/-- What a generation hands over. -/
structure Generated where
  files : List File
  guidance : Option Json.Value

/-- Loads the skeleton and its files. -/
def loadGenerated (read : Reading) (path : String) : Except CommandError Generated := do
  let text ← readGiven read "skeleton" path
  let skeleton ← lift (Skeleton.ofText path text)
  .ok ⟨← lift skeleton.files, skeleton.guidance⟩

/-- What the run before left below the output directory. -/
def source (read : Reading) (inputs : Inputs) : Source := read.below (.ofText inputs.out)

/-- The line that tells what a run did. -/
def summaryLine (report : Report) : String :=
  s!"{report.model.files.length} files written ({report.stats.preserved} edits preserved, " ++
    s!"{report.stats.introduced} new, {report.stats.dropped} dropped)\n"

/-- What a run prints. -/
def summary (report : Report) : String :=
  summaryLine report
    ++ String.join (report.failures.map fun failure =>
      s!"regenerated fresh: {failure.path} ({failure.error.message})\n")
    ++ String.join (report.stale.map fun path => s!"stale: {path}\n")

/-- Prepares a run. -/
def prepareRun (read : Reading) (inputs : Inputs) (strict : Bool) :
    Except CommandError Work := do
  let config ← lift (loadConfig read inputs.config)
  let generated ← loadGenerated read inputs.skeleton
  let source := source read inputs
  let previous ← lift (Previous.ofSource source config.layout)
  let report ← lift (Run.report source (config.strict || strict) previous generated.files)
  let report := report.withGuidance generated.guidance
  .ok { root := .ofText inputs.out, outputs := report.outputs config, text := summary report }

/-- Shows a record's text. -/
def prepareRender (read : Reading) (record : String) : Except CommandError Work := do
  let text ← readGiven read "trace" record
  let file ← lift (File.ofRecordText record text)
  .ok { text := file.content }

/-- Lists what a run would no longer generate. -/
def prepareStale (read : Reading) (inputs : Inputs) : Except CommandError Work := do
  let config ← lift (loadConfig read inputs.config)
  let generated ← loadGenerated read inputs.skeleton
  let previous ← lift (Previous.ofSource (source read inputs) config.layout)
  let stale := (Model.ofList generated.files).stalePaths previous.manifest
  .ok { text := String.join (stale.map fun path => path ++ "\n") }

/-- Reads all a command needs and prepares what it has to do. -/
def prepare (read : Reading) : Command → Except CommandError Work
  | .run inputs strict => prepareRun read inputs strict
  | .render record => prepareRender read record
  | .stale inputs => prepareStale read inputs

/-- Carries a command out on a disk, with any way of reading: files that are there
may be unreadable. -/
def performReading (read : Reading) (disk : Disk) (command : Command) :
    Except CommandError String × Disk :=
  match command.prepare read with
  | .error error => (.error error, disk)
  | .ok work =>
    match Disk.writeAll work.root disk work.outputs with
    | (.error error, disk) => (.error (.failed error), disk)
    | (.ok (), disk) => (.ok work.text, disk)

/-- Carries a command out on a disk where all that is there can be read. -/
def perform (disk : Disk) (command : Command) : Except CommandError String × Disk :=
  performReading disk.readText disk command

/-- The files a command was given. -/
def givenPaths : Command → List DiskPath
  | .run inputs _ | .stale inputs =>
    (inputs.config.toList ++ [inputs.skeleton]).map DiskPath.ofText
  | .render record => [.ofText record]

/-- The files of the run before that a command may need, once the given files can
be read. -/
def formerPaths (read : Reading) : Command → List DiskPath
  | .run inputs _ | .stale inputs =>
    match loadConfig read inputs.config, loadGenerated read inputs.skeleton with
    | .ok config, .ok generated =>
      (config.layout.manifestPath ::
        generated.files.map fun file => config.layout.recordPath file.path).map fun path =>
          (DiskPath.ofText inputs.out).join (.ofText path)
    | _, _ => []
  | .render _ => []

/-- A command that cannot be prepared leaves the disk as it was. -/
theorem performReading_of_refused {read : Reading} {disk : Disk} {command : Command}
    {error : CommandError} (h : command.prepare read = .error error) :
    performReading read disk command = (.error error, disk) := by
  rw [performReading, h]

end Command

end Regeneration
