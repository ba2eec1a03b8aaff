import Regeneration.Proofs.Command.Prepared
import Regeneration.Proofs.Manifest.History
import Regeneration.Proofs.Run.Specification
import Regeneration.Proofs.Run.Stale

/-!
# The preview of a run

What a run would no longer generate can be listed before. The list takes the generated files
as they are, the run merges them first and may fail to use records of the run before; but
merging keeps the path of every file, and what is stale goes by the paths alone. So the list
is the one that the run reports, for any files, strict or not.

Main statement: `preview_run`. It rests on `Run.stale_report`, that merging and failing to
load change nothing of what is stale.
-/

set_option autoImplicit false

namespace Regeneration

/-- What is stale goes by the paths of the files. -/
theorem Model.stalePaths_congr {model other : Model}
    (h : ∀ path, path ∈ model.paths ↔ path ∈ other.paths) (recorded : Manifest) :
    model.stalePaths recorded = other.stalePaths recorded := by
  apply List.filter_congr
  intro path _
  rw [Bool.eq_iff_iff]
  simp [h path]

/-- A run reports as stale what its generated files leave out. -/
theorem Run.stale_report {read : Source} {strict : Bool} {previous : Previous}
    {files : List File} {result : Report}
    (h : Run.report read strict previous files = .ok result) :
    result.stale = (Model.ofList files).stalePaths previous.manifest := by
  rw [Run.stale_run h]
  apply Model.stalePaths_congr
  intro path
  rw [Run.mem_paths_report h, Model.mem_paths_ofList]

namespace Command

/-- What a run prints before it lists what is stale. -/
def heading (report : Report) : String :=
  summaryLine report ++ String.join (report.failures.map fun failure =>
    "regenerated fresh: " ++ failure.path ++ " (" ++ failure.error.message ++ ")\n")

theorem summary_eq (report : Report) :
    summary report
      = heading report ++ String.join (report.stale.map fun path => "stale: " ++ path ++ "\n") := by
  rfl

/-- **The preview lists what a run reports as stale.** On every disk, with all inputs, strict
or not: if a run succeeds, then with the same inputs the preview on the disk before it
succeeds as well, changes nothing, and prints a line for each path of which the run's summary
prints a line that it is stale, in the same order. These are the recorded paths that no
generated file has, in the order of their bytes. -/
theorem preview_run {disk after : Disk} {inputs : Inputs} {strict : Bool} {text : String}
    (h : perform disk (.run inputs strict) = (.ok text, after)) :
    ∃ config generated previous report,
      Reads disk.readText inputs config generated previous ∧
      Run.report (source disk.readText inputs) (config.strict || strict) previous generated.files
        = .ok report ∧
      text = heading report
        ++ String.join (report.stale.map fun path => "stale: " ++ path ++ "\n") ∧
      perform disk (.stale inputs)
        = (.ok (String.join (report.stale.map fun path => path ++ "\n")), disk) ∧
      report.stale.Pairwise (fun path other => Text.bytes path < Text.bytes other) ∧
      ∀ path, path ∈ report.stale ↔
        path ∈ previous.manifest.paths ∧ path ∉ generated.files.map File.path := by
  obtain ⟨work, hprepare, -, rfl⟩ := prepareRun_of_perform h
  obtain ⟨config, generated, previous, report, hreads, hreport, rfl⟩ :=
    prepareRun_eq_ok_iff.1 hprepare
  -- the run's model holds merged files, but of the same paths
  have hstale := Run.stale_report hreport
  have hincreasing := Report.increasing_of_ofSource hreads.opened
  refine ⟨config, generated, previous, report, hreads, hreport, summary_eq report, ?_, ?_,
    fun path => ?_⟩
  · apply perform_of_no_outputs
    rw [hstale]
    exact prepareStale_eq_ok_iff.2 ⟨config, generated, previous, hreads, rfl⟩
  · rw [hstale]
    exact (hincreasing.imp fun hlt => Text.lt_iff_bytes_lt.1 hlt).filter _
  · rw [hstale, Model.mem_stalePaths, Model.mem_paths_ofList]

/-! ## Several spellings and a record that cannot be used -/

namespace Respelled

/-- Two spellings of one path, and a path whose record cannot be used. -/
def skeleton : String :=
  "\x7b\"files\":\x7b\"a\":[\"variable\",\"v\",\"A\"],\"./a\":[\"variable\",\"v\",\"B\"]," ++
    "\"b\":[\"variable\",\"v\",\"C\"]\x7d\x7d"

def disk : Disk :=
  (((Disk.fresh ["work"]).place (.ofText "s.json") (some (.text skeleton))).place
    (.ofText "out/traces/tracedFiles.json")
      (some (.text "\x7b\"tracedFiles\":[\"old\",\"/b\",\"gone\",\"a\"]\x7d"))).place
    (.ofText "out/traces/b.traces") (some (.text "oops"))

def inputs : Inputs := ⟨"s.json", "out", none⟩

/-- What the run comes to. -/
def done : Except CommandError String × Disk := perform disk (.run inputs false)

def text : String :=
  "2 files written (0 edits preserved, 0 new, 0 dropped)\n" ++
    "regenerated fresh: b (malformed trace traces/b.traces: expected value at line 1 column 1)\n" ++
    "stale: gone\nstale: old\n"

end Respelled

/-- The run starts afresh with one file, and the preview lists what it reports as stale. -/
theorem preview_run_respelled :
    perform Respelled.disk (.run Respelled.inputs false)
        = (.ok Respelled.text, Respelled.done.2) ∧
      ∃ report : Report, Respelled.text = heading report
          ++ String.join (report.stale.map fun path => "stale: " ++ path ++ "\n") ∧
        perform Respelled.disk (.stale Respelled.inputs)
          = (.ok (String.join (report.stale.map fun path => path ++ "\n")), Respelled.disk) := by
  have hresult : Respelled.done.1 = .ok Respelled.text := by decide +kernel
  have hrun : Respelled.done = (.ok Respelled.text, Respelled.done.2) := by
    rw [← hresult]
  obtain ⟨_, _, _, report, -, -, htext, hpreview, -⟩ := preview_run hrun
  exact ⟨hrun, report, htext, hpreview⟩

end Command

end Regeneration
