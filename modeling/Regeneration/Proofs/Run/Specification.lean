import Regeneration.Proofs.Manifest.History
import Regeneration.Proofs.Run.Asking
import Regeneration.Proofs.Run.Schedule

/-!
# What a run gives

A run over a source that does not change gives the same report however its files are
merged and whatever trees were asked for before. `Describes` says which report it is,
part by part, from the generated files and the records alone.

Main statements: `run_described`, and `Describes.unique`, that the parts leave nothing open.
-/

set_option autoImplicit false

namespace Regeneration

attribute [ext] Model Report

namespace MergeStats

/-- Counters added component by component. -/
def sums (all : List MergeStats) : MergeStats where
  preserved := (all.map preserved).sum
  defaulted := (all.map defaulted).sum
  dropped := (all.map dropped).sum
  introduced := (all.map introduced).sum

theorem sums_cons (stats : MergeStats) (rest : List MergeStats) :
    sums (stats :: rest) = stats + sums rest := by
  change _ = add stats (sums rest)
  simp [sums, add]

theorem total_eq_sums (all : List MergeStats) : total all = sums all := by
  suffices h : ∀ start, all.foldl add start = start + sums all by
    rw [total, h]
    exact zero_add _
  induction all with
  | nil => exact fun start => (add_zero start).symm
  | cons stats rest ih =>
      intro start
      rw [List.foldl_cons, ih, sums_cons, ← add_assoc]
      rfl

/-- The order of the counters does not matter. -/
theorem sums_perm {all others : List MergeStats} (h : all.Perm others) : sums all = sums others := by
  rw [sums, sums, (h.map preserved).sum_nat, (h.map defaulted).sum_nat, (h.map dropped).sum_nat,
    (h.map introduced).sum_nat]

end MergeStats

namespace Run

open Previous

/-- A generated file merged with the tree that its record describes. -/
def regenerated (read : Source) (layout : Layout) (file : File) : File :=
  file.merged (persisted read layout file.path)

/-- The counters of merging a generated file with the tree that its record describes. -/
def regeneratedStats (read : Source) (layout : Layout) (file : File) : MergeStats :=
  file.tree.mergeStats (persisted read layout file.path)

/-- The report of a run that merges every file with what its record describes. -/
def expected (read : Source) (layout : Layout) (manifest : Manifest) (files : List File) :
    Report :=
  let model := Model.ofList (files.map (regenerated read layout))
  { model
    failures := loadFailures read layout files
    stale := model.stalePaths manifest
    stats := .total (files.map (regeneratedStats read layout)) }

/-- What is assembled after asking for all files is what their records describe. -/
theorem assemble_afterAsking {read : Source} {previous : Previous}
    (h : Faithful read previous) (files : List File) :
    assemble (previous.afterAsking read (files.map File.path))
        (loadFailures read previous.layout files) files
      = expected read previous.layout previous.manifest files := by
  have hcached : ∀ file ∈ files,
      (previous.afterAsking read (files.map File.path)).cached file.path
        = persisted read previous.layout file.path :=
    fun file hm => cached_afterAsking h (List.mem_map_of_mem hm)
  have hmerged : files.map (mergeFile (previous.afterAsking read (files.map File.path)))
      = files.map (regenerated read previous.layout) := by
    apply List.map_congr_left
    intro file hm
    rw [mergeFile, regenerated, hcached file hm]
  have hstats : files.map (fileStats (previous.afterAsking read (files.map File.path)))
      = files.map (regeneratedStats read previous.layout) := by
    apply List.map_congr_left
    intro file hm
    rw [fileStats, regeneratedStats, hcached file hm]
  simp only [assemble, expected, hmerged, hstats, manifest_afterAsking]

/-- **A run gives the report expected**, or its first failure if it is strict. -/
theorem report_eq {read : Source} {previous : Previous} (h : Faithful read previous)
    (strict : Bool) (files : List File) :
    report read strict previous files
      = judge strict (loadFailures read previous.layout files)
          (expected read previous.layout previous.manifest files) := by
  rw [report, load_eq h, ← assemble_afterAsking h]
  cases strict with
  | false => rfl
  | true => cases loadFailures read previous.layout files <;> rfl

/-- However the files are merged, and whatever was asked for before, a run gives the
report expected. -/
theorem regenerate_afterAsking {read : Source} {layout : Layout} {opened : Previous}
    (hopen : ofSource read layout = .ok opened) (config : Config) (asked : List String)
    (files : List File) (schedule : Schedule files.length) :
    regenerate config read (opened.afterAsking read asked) files schedule
      = judge config.strict (loadFailures read layout files)
          (expected read layout opened.manifest files) := by
  rw [regenerate_eq, report_eq ((faithful_ofSource hopen).afterAsking asked), layout_afterAsking,
    manifest_afterAsking, (ofSource_eq_ok hopen).1]

end Run

open Run

/-- What a run over generated files has to report, part by part. -/
structure Report.Describes (read : Source) (layout : Layout) (manifest : Manifest)
    (files : List File) (report : Report) : Prop where
  /-- The model has the generated paths. -/
  mem_paths : ∀ path, path ∈ report.model.paths ↔ path ∈ files.map File.path
  increasing : Sorted.Increasing File.path report.model.files
  /-- At a path is the last file generated for it, merged with the tree that the path's
  record describes, or with none if there is no record or it cannot be used. -/
  file : ∀ path, Keyed.find? File.path path report.model.files
    = (Keyed.find? File.path path files.reverse).map fun file =>
        file.merged (persisted read layout path)
  guidance : report.model.guidance = none
  /-- Every generated file whose record cannot be used is a failure, in order. -/
  failures : report.failures = loadFailures read layout files
  /-- Every generated file counts, whether or not it was replaced. -/
  stats : report.stats = .sums (files.map (regeneratedStats read layout))
  /-- What is stale was recorded and is not in the model. -/
  mem_stale : ∀ path, path ∈ report.stale ↔ path ∈ manifest.paths ∧ path ∉ report.model.paths
  stale_increasing : Sorted.Increasing id report.stale

namespace Report

/-- A manifest that was opened is in order. -/
theorem increasing_of_ofSource {read : Source} {layout : Layout} {opened : Previous}
    (h : Previous.ofSource read layout = .ok opened) :
    Sorted.Increasing id opened.manifest.paths := by
  rw [Previous.ofSource] at h
  split at h
  · cases h
  · cases h
    exact List.Pairwise.nil
  · split at h
    · cases h
    · next manifest hmanifest =>
        cases h
        exact (Manifest.orderly_ofText hmanifest).increasing

theorem describes_expected (read : Source) (layout : Layout) {manifest : Manifest}
    (hmanifest : Sorted.Increasing id manifest.paths) (files : List File) :
    Describes read layout manifest files (expected read layout manifest files) where
  mem_paths := by
    intro path
    rw [expected, Model.mem_paths_ofList, List.map_map]
    rfl
  increasing := Model.increasing_ofList _
  file := by
    intro path
    -- merging keeps the path, so merged files are found where the generated ones are
    have hpath : ∀ file, (regenerated read layout file).path = file.path := fun _ => rfl
    rw [expected, Model.find?_ofList, ← List.map_reverse, Keyed.find?_map hpath]
    apply Option.map_congr
    intro file hfind
    rw [regenerated, Keyed.key_of_find? hfind]
  guidance := Model.guidance_ofList _
  failures := rfl
  stats := MergeStats.total_eq_sums _
  mem_stale := fun _ => Model.mem_stalePaths
  -- what is stale is a part of the manifest, which is in order
  stale_increasing := List.Pairwise.filter _ hmanifest

/-- **The parts leave nothing open.** -/
theorem Describes.unique {read : Source} {layout : Layout} {manifest : Manifest}
    {files : List File} {report other : Report} (h : Describes read layout manifest files report)
    (ho : Describes read layout manifest files other) : report = other := by
  have hfiles : report.model.files = other.model.files := by
    apply Sorted.eq_of_find?_eq h.increasing ho.increasing
    intro path
    rw [h.file, ho.file]
  have hmodel : report.model = other.model :=
    Model.ext hfiles (h.guidance.trans ho.guidance.symm)
  have hstale : report.stale = other.stale := by
    apply Sorted.eq_of_mem_iff h.stale_increasing ho.stale_increasing
    intro path
    rw [h.mem_stale, ho.mem_stale, hmodel]
  exact Report.ext hmodel (h.failures.trans ho.failures.symm) hstale (h.stats.trans ho.stats.symm)

/-- **What a run gives.** Let the run before be opened from a source that goes on to answer
the same. For all generated files there is one report, described by the files and the
records, that every run over them gives, whatever trees were asked for before and in
whichever order the files are merged; only a strict run ends with its first failure instead,
if there is one. -/
theorem run_described {read : Source} {layout : Layout} {opened : Previous}
    (hopen : Previous.ofSource read layout = .ok opened) (files : List File) :
    ∃ result, Describes read layout opened.manifest files result ∧
      ∀ (config : Config) (asked : List String) (schedule : Schedule files.length),
        (config.strict = false →
          regenerate config read (opened.afterAsking read asked) files schedule = .ok result) ∧
        (config.strict = true →
          (∀ failure, result.failures.head? = some failure →
            regenerate config read (opened.afterAsking read asked) files schedule
              = .error failure.error) ∧
          (result.failures = [] →
            regenerate config read (opened.afterAsking read asked) files schedule
              = .ok result)) := by
  refine ⟨expected read layout opened.manifest files,
    describes_expected read layout (increasing_of_ofSource hopen) files, ?_⟩
  intro config asked schedule
  rw [regenerate_afterAsking hopen]
  have hfailures : (expected read layout opened.manifest files).failures
      = loadFailures read layout files := rfl
  rw [hfailures]
  constructor
  · intro hstrict
    rw [hstrict, judge_false]
  · intro hstrict
    rw [hstrict]
    constructor
    · intro failure hhead
      obtain ⟨later, hhead⟩ := List.head?_eq_some_iff.1 hhead
      rw [hhead, judge_true_cons]
    · intro hnone
      rw [hnone, judge_nil]

/-! ## A run with a path generated twice and records that cannot be used -/

namespace Mixed

def manifestText : String := "\x7b\"tracedFiles\":[\"gone.txt\",\"a.txt\"]\x7d"

def recordText : String :=
  "\x7b\"type\":\"variable\",\"id\":\"x\",\"content\":\"mine\"\x7d"

/-- One record reads, one is of another shape and one is a directory. -/
def source : Source := fun path =>
  if path = "traces/tracedFiles.json" then .ok (some manifestText)
  else if path = "traces/a.txt.traces" then .ok (some recordText)
  else if path = "traces/b.txt.traces" then .ok (some "[1,2")
  else if path = "traces/c.txt.traces" then .error .isDirectory
  else .ok none

def opened : Previous := { manifest := ⟨["a.txt", "gone.txt"]⟩ }

def files : List File :=
  [⟨"a.txt", .editable "x" "first"⟩, ⟨"b.txt", .editable "x" "B"⟩,
    ⟨"a.txt", .editable "x" "second"⟩, ⟨"c.txt", .editable "x" "C"⟩]

theorem ofText_manifestText :
    Manifest.ofText manifestText = .ok ⟨["a.txt", "gone.txt"]⟩ := by
  decide +kernel

theorem ofSource_source : Previous.ofSource source .standard = .ok opened :=
  Previous.ofSource_of_manifest rfl ofText_manifestText

theorem loadRecord_source : Previous.loadRecord source (Layout.standard.recordPath "a.txt")
    = .ok (some (.editable "x" "mine")) := by
  have hsource : source (Layout.standard.recordPath "a.txt") = .ok (some recordText) := rfl
  have hrecord : Record.ofText recordText = .ok (.editable "x" "mine") := by
    rw [recordText]
    cbv
  have htree : (Record.editable "x" "mine").toSegment = .ok (.editable "x" "mine") := rfl
  have hmake : File.make (Layout.standard.recordPath "a.txt") (.editable "x" "mine")
      = .ok ⟨"traces/a.txt.traces", .editable "x" "mine"⟩ := rfl
  simp only [Previous.loadRecord, Previous.readText, hsource, File.ofRecordText, hrecord, htree,
    hmake]

theorem loadFailures_source : loadFailures source .standard files
    = [⟨"b.txt", .malformed "traces/b.txt.traces" ⟨.wrongType, some ⟨1, 2⟩⟩⟩,
        ⟨"c.txt", .disk "traces/c.txt.traces" .isDirectory⟩] := by
  have ha : loadError? source .standard "a.txt" = none := by
    rw [loadError?, loadRecord_source]
  have hb : loadError? source .standard "b.txt"
      = some (.malformed "traces/b.txt.traces" ⟨.wrongType, some ⟨1, 2⟩⟩) := by
    decide
  have hc : loadError? source .standard "c.txt"
      = some (.disk "traces/c.txt.traces" .isDirectory) := by
    decide
  simp [loadFailures, files, ha, hb, hc]

theorem stats_source :
    MergeStats.sums (files.map (regeneratedStats source .standard)) = ⟨2, 2, 0, 0⟩ := by
  have ha : persisted source .standard "a.txt" = some (.editable "x" "mine") := by
    rw [persisted, loadRecord_source]
  have hb : persisted source .standard "b.txt" = none := rfl
  have hc : persisted source .standard "c.txt" = none := rfl
  simp [MergeStats.sums, files, regeneratedStats, ha, hb, hc, Segment.mergeStats]

end Mixed

open Mixed in
/-- With some trees asked for before and the files merged backwards, a run gives what it
gives one file after another: the later file of the repeated path is kept with its edit, and
both unusable records are told. A strict run ends with the first of them. -/
theorem run_described_mixed :
    Previous.ofSource source .standard = .ok opened ∧
    ∃ result,
      regenerate { parallel := true } source (opened.afterAsking source ["b.txt", "a.txt"]) files
        (.backwards 4) = .ok result ∧
      regenerate { parallel := false } source opened files (.inTurn 4) = .ok result ∧
      (Keyed.find? File.path "a.txt" result.model.files).map File.content = some "mine" ∧
      result.failures.map Failure.path = ["b.txt", "c.txt"] ∧
      result.stats = ⟨2, 2, 0, 0⟩ ∧ "gone.txt" ∈ result.stale ∧ "a.txt" ∉ result.stale ∧
      regenerate { strict := true } source opened files (.inTurn 4)
        = .error (.malformed "traces/b.txt.traces" ⟨.wrongType, some ⟨1, 2⟩⟩) := by
  obtain ⟨result, hdescribed, hruns⟩ := run_described ofSource_source files
  have hfailures := hdescribed.failures
  rw [loadFailures_source] at hfailures
  have hfile := hdescribed.file "a.txt"
  rw [persisted, loadRecord_source] at hfile
  have hfirst : result.failures.head?
      = some ⟨"b.txt", .malformed "traces/b.txt.traces" ⟨.wrongType, some ⟨1, 2⟩⟩⟩ := by
    rw [hfailures]
    rfl
  have hstrict := (hruns { strict := true } [] (.inTurn 4)).2 rfl
  refine ⟨ofSource_source, result, (hruns _ _ _).1 rfl, (hruns { parallel := false } [] _).1 rfl,
    ?_, ?_, hdescribed.stats.trans stats_source, ?_, ?_, hstrict.1 _ hfirst⟩
  · rw [hfile]
    rfl
  · rw [hfailures]
    rfl
  · rw [hdescribed.mem_stale, hdescribed.mem_paths]
    decide
  · rw [hdescribed.mem_stale, hdescribed.mem_paths]
    decide

end Report

end Regeneration
