import Regeneration.Merge.Log
import Regeneration.Run.Report

/-!
# What a run reports while it goes on

A run can be followed event by event. All former trees are loaded first, then all
files are merged, then the results are put together.
-/

set_option autoImplicit false

namespace Regeneration

/-- How much an event matters. -/
inductive Level where
  | debug
  | info
  | warn
  deriving DecidableEq, Repr

/-- The name of a level. -/
def Level.name : Level → String
  | .debug => "DEBUG"
  | .info => "INFO"
  | .warn => "WARN"

/-- Something a run did that is worth telling. -/
inductive RunEvent where
  | firstGeneration (manifestPath : String)
  | started (files : Nat)
  | noRecord (path : String)
  | unusableRecord (path : String) (error : RunError)
  | merging (event : MergeEvent)
  | merged (path : String) (stats : MergeStats)
  | replaced (path : String)
  | finished (files : Nat) (stats : MergeStats) (stale failed : Nat)
  deriving DecidableEq, Repr

namespace RunEvent

/-- How much an event matters. -/
def level : RunEvent → Level
  | .firstGeneration _ | .started _ | .finished .. => .info
  | .unusableRecord .. | .replaced _ => .warn
  | .noRecord _ | .merging _ | .merged .. => .debug

/-- The text of an event. -/
def message : RunEvent → String
  | .firstGeneration manifestPath => s!"No manifest at {manifestPath}: first generation"
  | .started files => s!"Regenerating {files} files"
  | .noRecord path => s!"No previous trace for {path}"
  | .unusableRecord path error => s!"Regenerating {path} fresh: {error.message}"
  | .merging event => event.message
  | .merged path stats => s!"Merged {path}: {stats.describe}"
  | .replaced path => s!"Duplicate generated path {path}: keeping the later file"
  | .finished files stats stale failed =>
    s!"Regenerated {files} files: {stats.preserved} edits preserved, {stats.dropped} dropped, " ++
      s!"{stats.introduced} new, {stale} stale, {failed} failed"

/-- The line of an event. -/
def line (event : RunEvent) : String := event.level.name ++ " " ++ event.message

end RunEvent

/-- The event of looking at what a run left behind. -/
def Previous.openEvents (read : Source) (layout : Layout) : List RunEvent :=
  match Previous.readText read layout.manifestPath with
  | .ok none => [.firstGeneration layout.manifestPath]
  | _ => []

namespace Run

/-- The events of loading the former trees; only what is not held yet tells that
it has no record. -/
def loadEvents (read : Source) (strict : Bool) : Previous → List File → List RunEvent
  | _, [] => []
  | previous, file :: rest =>
    match Previous.oldTree read previous file.path with
    | .ok (tree, next) =>
      let absent :=
        if (previous.held? file.path).isNone && tree.isNone then [RunEvent.noRecord file.path]
        else []
      absent ++ loadEvents read strict next rest
    | .error error =>
      if strict then []
      else .unusableRecord file.path error :: loadEvents read strict previous rest

/-- The events of merging files. -/
def mergeEvents (previous : Previous) (files : List File) : List RunEvent :=
  files.flatMap fun file =>
    (file.tree.mergeLog (previous.cached file.path)).map .merging

/-- The events of putting merged files together; `taken` are the paths put in
before. -/
def putEvents (previous : Previous) : List String → List File → List RunEvent
  | _, [] => []
  | taken, file :: rest =>
    let merged := RunEvent.merged file.path (fileStats previous file)
    let replaced := if taken.contains file.path then [RunEvent.replaced file.path] else []
    merged :: replaced ++ putEvents previous (file.path :: taken) rest

/-- The event that ends a run. -/
def closing (report : Report) : RunEvent :=
  .finished report.model.files.length report.stats report.stale.length report.failures.length

/-- The events of a run. -/
def events (read : Source) (strict : Bool) (previous : Previous) (files : List File) :
    List RunEvent :=
  .started files.length :: loadEvents read strict previous files ++
    match load read strict previous files with
    | .error _ => []
    | .ok (failures, previous) =>
      mergeEvents previous files ++ putEvents previous [] files
        ++ [closing (assemble previous failures files)]

end Run

end Regeneration
