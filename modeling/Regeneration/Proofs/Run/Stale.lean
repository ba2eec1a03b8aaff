import Regeneration.Proofs.Manifest.History
import Regeneration.Proofs.Model.Outputs
import Regeneration.Proofs.Run.ClosedLoop

/-!
# Stale paths and emitted files

A path is stale if the run before recorded it and no file of this run has it. Paths are
compared as strings in normalized spelling, so a stale path is never the path of a
generated file; it can still lead to the place of one in another spelling. And nothing
keeps a manifest from listing the path of a record or of the manifest itself.

Main statement: `stale_apart`.
-/

set_option autoImplicit false

namespace Regeneration

theorem Report.files_withGuidance (report : Report) (guidance : Option Json.Value) :
    (report.withGuidance guidance).model.files = report.model.files := by
  cases guidance <;> rfl

namespace Run

/-- The paths of a run's files are those of the generated files. -/
theorem mem_paths_report {read : Source} {strict : Bool} {previous : Previous}
    {files : List File} {result : Report} {path : String}
    (h : report read strict previous files = .ok result) :
    path ∈ result.model.paths ↔ path ∈ files.map File.path := by
  obtain ⟨failures, after, -, rfl⟩ := report_eq_ok h
  exact mem_paths_assemble

end Run

/-- Two paths that lead to one place in different spellings, not both canonical. -/
def Path.Respelled (path other : String) : Prop :=
  location path = location other ∧ path ≠ other ∧ ¬ (Canonical path ∧ Canonical other)

/-- **A stale path and an emitted file.** For every recorded manifest that reads, all
accepted files and every layout, a path that a run reports as stale leads to the place
of an emitted file only if that is the text of a generated file under another spelling
of its path, one of the two not being canonical, or if it is a record, the manifest or
the guidance document. -/
theorem Report.stale_apart {read : Source} {text : String} {previous : Previous}
    {config : Config} {files : List File} {report : Report} (guidance : Option Json.Value)
    (hmanifest : Manifest.ofText text = .ok previous.manifest)
    (hfiles : ∀ file ∈ files, ∃ path tree, File.make path tree = .ok file)
    (hreport : Run.report read config.strict previous files = .ok report) :
    ∀ path ∈ report.stale, ∀ output ∈ (report.withGuidance guidance).outputs config,
      Path.location path = Path.location output.path →
        (output.path ∈ report.model.paths ∧ Path.Respelled path output.path) ∨
          output.path ∈ (report.withGuidance guidance).model.besidePaths config.layout := by
  intro path hstale output houtput hlocation
  rw [Run.stale_run hreport] at hstale
  obtain ⟨hrecorded, hgone⟩ := Model.mem_stalePaths.1 hstale
  have hpaths := (Model.paths_outputs_perm (report.withGuidance guidance).model config.layout
    config.pretty).subset (List.mem_map_of_mem houtput)
  rcases List.mem_append.1 hpaths with hfile | hbeside
  · rw [Model.paths, files_withGuidance] at hfile
    have hne : path ≠ output.path := fun he => hgone (he ▸ hfile)
    refine .inl ⟨hfile, hlocation, hne, ?_⟩
    rintro ⟨hpath, hother⟩
    apply hne
    -- both spellings are normalized, so as canonical ones they would be equal
    obtain ⟨file, hm, he⟩ := List.mem_map.1 ((Run.mem_paths_report hreport).1 hfile)
    obtain ⟨_, _, hmake⟩ := hfiles file hm
    have hnormal := (Manifest.orderly_ofText hmanifest).normalized path hrecorded
    have hnormalFile : Path.normalize output.path = output.path := by
      rw [← he]
      exact File.normalize_of_make hmake
    have hequal := Path.eq_of_location_eq (hnormal.symm ▸ hpath) (hnormalFile.symm ▸ hother)
      hlocation
    rwa [hnormal, hnormalFile] at hequal
  · exact .inr hbeside

/-! ## A manifest with other spellings -/

namespace Report.Spellings

/-- The text of a manifest that lists another spelling of a generated path, and the
manifest itself. -/
def text : String := "\x7b\"tracedFiles\":[\"a//b.txt\",\"traces/tracedFiles.json\"]\x7d"

def before : Previous := { manifest := ⟨["a//b.txt", "traces/tracedFiles.json"]⟩ }

def files : List File := [⟨"a/b.txt", .literal "b" "B"⟩]

def report : Report := Run.assemble (before.keep "a/b.txt" none) [] files

end Report.Spellings

open Report.Spellings in
/-- The other spelling of the generated path is stale, and it leads to the text that was
emitted: the two are respelled. -/
theorem Report.stale_apart_spelling :
    Manifest.ofText text = .ok before.manifest ∧
    (∀ file ∈ files, ∃ path tree, File.make path tree = .ok file) ∧
    Run.report Store.empty.read Config.standard.strict before files = .ok report ∧
    "a//b.txt" ∈ report.stale ∧ Path.Respelled "a//b.txt" "a/b.txt" := by
  have hmanifest : Manifest.ofText text = .ok before.manifest := by decide +kernel
  have hfiles : ∀ file ∈ files, ∃ path tree, File.make path tree = .ok file := by
    intro file hm
    cases List.mem_singleton.1 hm
    exact ⟨"a/b.txt", .literal "b" "B", rfl⟩
  have hreport : Run.report Store.empty.read Config.standard.strict before files = .ok report :=
    rfl
  have hstale : "a//b.txt" ∈ report.stale := by decide
  have houtput : ⟨"a/b.txt", "B"⟩ ∈ (report.withGuidance none).outputs Config.standard := by
    decide
  have hlocation : Path.location "a//b.txt" = Path.location "a/b.txt" := by decide
  refine ⟨hmanifest, hfiles, hreport, hstale, ?_⟩
  rcases stale_apart none hmanifest hfiles hreport _ hstale _ houtput hlocation with h | h
  · exact h.2
  · exact absurd h (by decide)

open Report.Spellings in
/-- **Stale paths can be files that were just written**: here one is a generated text in
another spelling, and the other is the manifest. -/
theorem Report.stale_emitted :
    Manifest.ofText text = .ok before.manifest ∧
    Run.report Store.empty.read Config.standard.strict before files = .ok report ∧
    report.stale = ["a//b.txt", "traces/tracedFiles.json"] ∧
    ∀ path ∈ report.stale, ∃ output ∈ (report.withGuidance none).outputs Config.standard,
      Path.location path = Path.location output.path := by
  exact ⟨by decide +kernel, rfl, by decide, by decide⟩

end Regeneration
