import Regeneration.Command.Basic
import Regeneration.Proofs.Outcome

/-!
# What commands prepare

A run and its preview read the same: a configuration, what is generated, and what the run
before left. All that a run does besides, and all that can fail after that, is merging and
writing.

Main statements: `prepareRun_eq_ok_iff` and `prepareStale_eq_ok_iff`, what a command that can
be prepared has to do, and `prepareRun_of_perform`.
-/

set_option autoImplicit false

namespace Regeneration.Command

open Outcome

theorem lift_eq_ok {α : Type} {given : Except RunError α} {result : α} :
    lift given = .ok result ↔ given = .ok result := by
  cases given <;> simp [lift]

/-- A guidance document is not told of. -/
theorem summary_withGuidance (report : Report) (guidance : Option Json.Value) :
    summary (report.withGuidance guidance) = summary report := by
  cases guidance <;> rfl

/-- What a run and its preview read alike: the configuration, what is generated, and what
the run before left. -/
structure Reads (read : Reading) (inputs : Inputs) (config : Config) (generated : Generated)
    (previous : Previous) : Prop where
  configured : loadConfig read inputs.config = .ok config
  handed : loadGenerated read inputs.skeleton = .ok generated
  opened : Previous.ofSource (source read inputs) config.layout = .ok previous

variable {read : Reading} {inputs : Inputs} {strict : Bool}

/-- What a run has to do that can be prepared. -/
theorem prepareRun_eq_ok_iff {work : Work} :
    prepareRun read inputs strict = .ok work ↔
      ∃ config generated previous report,
        Reads read inputs config generated previous ∧
        Run.report (source read inputs) (config.strict || strict) previous generated.files
          = .ok report ∧
        work = ⟨.ofText inputs.out, (report.withGuidance generated.guidance).outputs config,
          summary report⟩ := by
  constructor
  · intro h
    obtain ⟨config, hconfig, h⟩ := bind_eq_ok.1 h
    obtain ⟨generated, hgenerated, h⟩ := bind_eq_ok.1 h
    obtain ⟨previous, hprevious, h⟩ := bind_eq_ok.1 h
    obtain ⟨report, hreport, h⟩ := bind_eq_ok.1 h
    cases h
    rw [summary_withGuidance]
    exact ⟨config, generated, previous, report,
      ⟨lift_eq_ok.1 hconfig, hgenerated, lift_eq_ok.1 hprevious⟩, lift_eq_ok.1 hreport, rfl⟩
  · rintro ⟨config, generated, previous, report, hreads, hreport, rfl⟩
    rw [← summary_withGuidance report generated.guidance]
    exact bind_eq_ok.2 ⟨config, lift_eq_ok.2 hreads.configured, bind_eq_ok.2 ⟨generated,
      hreads.handed, bind_eq_ok.2 ⟨previous, lift_eq_ok.2 hreads.opened,
        bind_eq_ok.2 ⟨report, lift_eq_ok.2 hreport, rfl⟩⟩⟩⟩

/-- A run writes below the directory it was given. -/
theorem root_of_prepareRun {work : Work} (h : prepareRun read inputs strict = .ok work) :
    work.root = .ofText inputs.out := by
  obtain ⟨_, _, _, _, -, -, rfl⟩ := prepareRun_eq_ok_iff.1 h
  rfl

/-- The preview of a run prints what is stale and has nothing else to do. -/
theorem prepareStale_eq_ok_iff {work : Work} :
    prepareStale read inputs = .ok work ↔
      ∃ config generated previous, Reads read inputs config generated previous ∧
        work = ⟨default, [], String.join (((Model.ofList generated.files).stalePaths
          previous.manifest).map fun path => path ++ "\n")⟩ := by
  constructor
  · intro h
    obtain ⟨config, hconfig, h⟩ := bind_eq_ok.1 h
    obtain ⟨generated, hgenerated, h⟩ := bind_eq_ok.1 h
    obtain ⟨previous, hprevious, h⟩ := bind_eq_ok.1 h
    cases h
    exact ⟨config, generated, previous,
      ⟨lift_eq_ok.1 hconfig, hgenerated, lift_eq_ok.1 hprevious⟩, rfl⟩
  · rintro ⟨config, generated, previous, hreads, rfl⟩
    exact bind_eq_ok.2 ⟨config, lift_eq_ok.2 hreads.configured, bind_eq_ok.2 ⟨generated,
      hreads.handed, bind_eq_ok.2 ⟨previous, lift_eq_ok.2 hreads.opened, rfl⟩⟩⟩

/-! ## What is carried out -/

/-- A run that succeeds was prepared, wrote all its outputs, and prints what was
prepared. -/
theorem prepareRun_of_perform {disk after : Disk} {text : String}
    (h : perform disk (.run inputs strict) = (.ok text, after)) :
    ∃ work, prepareRun disk.readText inputs strict = .ok work ∧
      Disk.writeAll work.root disk work.outputs = (.ok (), after) ∧ work.text = text := by
  rw [perform, performReading, prepare] at h
  split at h
  · cases h
  · next work hprepare =>
      split at h
      · cases h
      · next hwrite =>
          cases h
          exact ⟨work, hprepare, hwrite, rfl⟩

/-- A command without outputs prints what was prepared and leaves the disk as it was. -/
theorem perform_of_no_outputs {disk : Disk} {command : Command} {text : String}
    (h : command.prepare disk.readText = .ok ⟨default, [], text⟩) :
    perform disk command = (.ok text, disk) := by
  rw [perform, performReading, h]
  rfl

end Regeneration.Command
