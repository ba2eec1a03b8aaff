import Regeneration.Run.Log
import Regeneration.Segment.Lookup
import Regeneration.Skeleton

/-!
# Generations in memory

A session has a configuration and keeps in memory what its runs write. Between
runs the records can be edited the way a user edits them.
-/

set_option autoImplicit false

namespace Regeneration

/-- A configuration and the texts that runs left behind. -/
structure Session where
  config : Config := Config.standard
  store : Store := Store.empty

namespace Session

/-- The result of a run in a session. -/
structure Generation where
  report : Report
  outputs : List Output
  session : Session

/-- Runs with a skeleton and stores what is to be written. -/
def generate (session : Session) (skeleton : String) : Except RunError Generation := do
  let read := session.store.read
  let skeleton ← Skeleton.ofText "skeleton" skeleton
  let files ← skeleton.files
  let previous ← Previous.ofSource read session.config.layout
  let report ← Run.report read session.config.strict previous files
  let report := report.withGuidance skeleton.guidance
  let outputs := report.outputs session.config
  .ok ⟨report, outputs, { session with store := session.store.putOutputs outputs }⟩

/-- The events of a run in a session, as far as it comes. -/
def events (session : Session) (skeleton : String) : List RunEvent :=
  let read := session.store.read
  match Skeleton.ofText "skeleton" skeleton with
  | .error _ => []
  | .ok skeleton =>
    match skeleton.files with
    | .error _ => []
    | .ok files =>
      Previous.openEvents read session.config.layout ++
        match Previous.ofSource read session.config.layout with
        | .error _ => []
        | .ok previous => Run.events read session.config.strict previous files

/-- Why a record could not be edited. -/
inductive EditError where
  | record (error : RunError)
  | target (error : SegmentError)
  deriving DecidableEq, Repr

/-- A file after an edit. -/
structure Edit where
  file : File
  session : Session

/-- Edits the record of a file; none if there is no record. -/
def edit (session : Session) (path target content : String) :
    Except EditError (Option Edit) :=
  let recordPath := session.config.layout.recordPath path
  match session.store.get? recordPath with
  | none => .ok none
  | some text =>
    match File.ofRecordText recordPath text with
    | .error error => .error (.record error)
    | .ok held =>
      match Address.read target with
      | .error error => .error (.target error)
      | .ok target =>
        match held.tree.setContent target content with
        | .error error => .error (.target error)
        | .ok tree =>
          match File.make path tree with
          | .error error => .error (.record error)
          | .ok file =>
            let store := session.store.put recordPath (file.recordText session.config.pretty)
            .ok (some ⟨file, { session with store }⟩)

end Session

end Regeneration
