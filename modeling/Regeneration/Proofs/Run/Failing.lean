import Mathlib.Data.List.Basic
import Regeneration.Proofs.Command.Prepared
import Regeneration.Proofs.Disk.Writing

/-!
# Runs that fail

A run reads and prepares everything first, and it looks at all paths it will write to
before it writes to any. So whatever it refuses, the disk is as it was. Once it writes, any
operation may go wrong, in any way. What the run wrote until then is there, and nothing else
was touched but the file at which it stopped.

Main statement: `failed_run`.
-/

set_option autoImplicit false

namespace Regeneration.Command

/-- A run that is refused: something it was given or left before cannot be read or used,
or one of the paths it would write to is unsafe. -/
def Refused (read : Reading) (inputs : Inputs) (strict : Bool) (error : CommandError) : Prop :=
  prepareRun read inputs strict = .error error ∨
    ∃ work problem, prepareRun read inputs strict = .ok work ∧
      Disk.checkOutputs work.outputs = .error problem ∧ error = .failed problem

/-- A run that came to an output which cannot be written: the outputs before it are
written, those after it are not, and all that is new besides are directories above the
outputs up to that one. Only of the place of that one nothing is told, for its file may have
been emptied or written in part. -/
def Interrupted (read : Reading) (disk : Disk) (inputs : Inputs) (strict : Bool)
    (error : CommandError) (after : Disk) : Prop :=
  ∃ work done failing rest middle problem,
    prepareRun read inputs strict = .ok work ∧
    Disk.checkOutputs work.outputs = .ok (done ++ failing :: rest) ∧
    Disk.writeEach (.ofText inputs.out) disk done = (.ok (), middle) ∧
    Disk.writeOutput (.ofText inputs.out) middle failing = (.error problem, after) ∧
    error = .failed problem ∧ Disk.Concerns (.ofText inputs.out) failing problem ∧
    Disk.Wrote (.ofText inputs.out) disk after done (done ++ [failing])
      (some (Disk.placeOf disk.current (.ofText inputs.out) failing))

/-- **A run that fails.** On every disk, whatever can be read of it and whatever goes wrong
with writing, and with all inputs: if a run fails, then either it was refused and the disk is
as it was, or it came to an output that cannot be written and left the outputs before it. -/
theorem failed_run {read : Reading} {disk after : Disk} {inputs : Inputs} {strict : Bool}
    {error : CommandError}
    (h : performReading read disk (.run inputs strict) = (.error error, after)) :
    (Refused read inputs strict error ∧ after = disk) ∨
      Interrupted read disk inputs strict error after := by
  cases hprepare : prepare read (.run inputs strict) with
  | error problem =>
      rw [performReading_of_refused hprepare] at h
      cases h
      exact .inl ⟨.inl hprepare, rfl⟩
  | ok work =>
      rw [performReading, hprepare] at h
      simp only [root_of_prepareRun hprepare, Disk.writeAll] at h
      -- every path is looked at before the first is written to
      cases hcheck : Disk.checkOutputs work.outputs with
      | error problem =>
          rw [hcheck] at h
          cases h
          exact .inl ⟨.inr ⟨work, problem, hprepare, hcheck, rfl⟩, rfl⟩
      | ok outputs =>
          simp only [hcheck] at h
          split at h
          · next problem _ hwrite =>
              cases h
              obtain ⟨done, failing, rest, middle, rfl, hdone, hfailing⟩ :=
                Disk.writeEach_eq_error hwrite
              exact .inr ⟨work, done, failing, rest, middle, problem, hprepare, hcheck, hdone,
                hfailing, rfl, (Disk.writeOutput_eq_error hfailing).1,
                Disk.wrote_of_error hdone hfailing⟩
          · cases h

namespace Sample

/-- Three files of one text each. -/
def skeleton : String :=
  "\x7b\"files\":\x7b\"a\":[\"variable\",\"v\",\"A\"],\"b\":[\"variable\",\"v\",\"B\"]," ++
    "\"c\":[\"variable\",\"v\",\"C\"]\x7d\x7d"

/-- A disk with an older second file, full by the time that file is written. The eighth
operation of the run does so: up to it there are five for the first file and its record, and
two for the directory of the second file. -/
def full : Disk :=
  { ((Disk.fresh ["work"]).place (.ofText "s.json") (some (.text skeleton))).place
      (.ofText "out/b") (some (.text "older")) with
    mishaps := List.replicate 7 none ++
      [some ⟨.other "No space left on device (os error 28)", some (.text "")⟩] }

def inputs : Inputs := ⟨"s.json", "out", none⟩

/-- What the run comes to. -/
def stopped : Except CommandError String × Disk := perform full (.run inputs false)

/-- It fails at the second file. -/
def fault : CommandError :=
  .failed (.disk "out/b" (.other "No space left on device (os error 28)"))

end Sample

/-- A run on a disk that is full when the second of three files is written: the first is there,
the second was emptied, and the third was never begun. -/
theorem failed_run_full :
    perform Sample.full (.run Sample.inputs false) = (.error Sample.fault, Sample.stopped.2) ∧
      Interrupted Sample.full.readText Sample.full Sample.inputs false Sample.fault
        Sample.stopped.2 ∧
      Sample.stopped.2.readText (.ofText "out/a") = .ok "A" ∧
      Sample.stopped.2.readText (.ofText "out/b") = .ok "" ∧
      Sample.stopped.2.readText (.ofText "out/c") = .error .notFound := by
  obtain ⟨hresult, hfirst, hsecond, hthird⟩ :
      Sample.stopped.1 = .error Sample.fault ∧
        Sample.stopped.2.readText (.ofText "out/a") = .ok "A" ∧
        Sample.stopped.2.readText (.ofText "out/b") = .ok "" ∧
        Sample.stopped.2.readText (.ofText "out/c") = .error .notFound := by
    decide +kernel
  have hrun : perform Sample.full (.run Sample.inputs false)
      = (.error Sample.fault, Sample.stopped.2) := by
    rw [← hresult]
    rfl
  refine ⟨hrun, ?_, hfirst, hsecond, hthird⟩
  rcases failed_run hrun with ⟨-, hsame⟩ | hinterrupted
  · -- the first file was not there before
    have hbefore : Sample.full.readText (.ofText "out/a") = .error .notFound := by decide +kernel
    rw [hsame, hbefore] at hfirst
    cases hfirst
  · exact hinterrupted

end Regeneration.Command
