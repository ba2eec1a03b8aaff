import Regeneration.Session
import Regeneration.Proofs.Merge.Stability
import Regeneration.Proofs.Model.Files
import Regeneration.Proofs.Run.Generated
import Regeneration.Proofs.Store.Outputs

/-!
# The closed loop

What a run writes is what the next run reads: the manifest lists the files, every
record is rebuilt to a tree of the same record, and a second run with the same skeleton
has nothing to report and writes the same again.

Main statement: `closed_loop`. It rests on records being read back from their texts
and on `view_mergeFile`, that merging with what was persisted persists the same.
-/

set_option autoImplicit false

namespace Regeneration

/-- What a run with a skeleton has to write, the guidance document of the skeleton
among it if there is one. -/
def Report.emitted (report : Report) (skeleton : Skeleton) (config : Config) : List Output :=
  (report.withGuidance skeleton.guidance).outputs config

/-- Nothing but what a run with a skeleton emitted, as the next run reads it. -/
def Report.leftBehind (report : Report) (skeleton : Skeleton) (config : Config) : Source :=
  (Store.empty.putOutputs (report.emitted skeleton config)).read

theorem Report.emitted_eq {report : Report} (skeleton : Skeleton) (config : Config)
    (h : report.model.guidance = none) :
    report.emitted skeleton config
      = (Model.mk report.model.files skeleton.guidance).outputs config.layout config.pretty := by
  obtain ⟨⟨files, guidance⟩, failures, stale, stats⟩ := report
  cases h
  rw [emitted]
  cases skeleton.guidance <;> rfl

namespace Run

/-! ## The model of a run -/

theorem report_eq_ok {read : Source} {strict : Bool} {previous : Previous} {files : List File}
    {result : Report} (h : report read strict previous files = .ok result) :
    ∃ failures after, load read strict previous files = .ok (failures, after) ∧
      result = assemble after failures files := by
  rw [report] at h
  split at h
  · cases h
  · next failures after hl =>
      cases h
      exact ⟨failures, after, hl, rfl⟩

/-- The file of a path in a run's model is the last that was generated, merged. -/
theorem find?_assemble (previous : Previous) (failures : List Failure) (files : List File)
    (path : String) :
    Keyed.find? File.path path (assemble previous failures files).model.files
      = (Keyed.find? File.path path files.reverse).map (mergeFile previous) := by
  have hpath : ∀ file, (mergeFile previous file).path = file.path := fun _ => rfl
  rw [assemble, Model.find?_ofList, ← List.map_reverse, Keyed.find?_map hpath]

theorem mem_paths_assemble {previous : Previous} {failures : List Failure} {files : List File}
    {path : String} :
    path ∈ (assemble previous failures files).model.paths ↔ path ∈ files.map File.path := by
  rw [assemble, Model.mem_paths_ofList, List.map_map]
  rfl

theorem generated_assemble {previous : Previous} {files : List File} (failures : List Failure)
    (hp : previous.Sound) (hf : ∀ file ∈ files, file.Generated) :
    ∀ file ∈ (assemble previous failures files).model.files, file.Generated := by
  intro file hm
  obtain ⟨generated, hg, rfl⟩ := List.mem_map.1 (Model.mem_of_mem_ofList hm)
  exact (hf generated hg).merged fun _ hc => hp.cached hc

/-! ## Reading what was written -/

theorem normalize_paths {model : Model} (hf : ∀ file ∈ model.files, file.Generated) :
    ∀ path ∈ model.paths, Path.normalize path = path := by
  intro path hp
  obtain ⟨file, hm, rfl⟩ := List.mem_map.1 hp
  exact (hf file hm).normalized

/-- What a model has to write, in a store of its own. -/
def written (model : Model) (layout : Layout) (pretty : Bool) : Store :=
  Store.empty.putOutputs (model.outputs layout pretty)

section Reading

variable {model : Model} {layout : Layout} {pretty : Bool}
  (hd : ((model.outputs layout pretty).map Output.normalized).Nodup)

include hd

theorem get?_written {output : Output} (hm : output ∈ model.outputs layout pretty) :
    (written model layout pretty).get? output.path = some output.contents :=
  Store.get?_of_distinct hd hm

/-- **The manifest is read back.** -/
theorem ofSource_written (ho : Sorted.Increasing File.path model.files)
    (hf : ∀ file ∈ model.files, file.Generated) :
    ∃ opened, Previous.ofSource (written model layout pretty).read layout = .ok opened ∧
      opened.layout = layout ∧ opened.manifest = model.manifest ∧
      ∀ path, opened.held? path = none := by
  have hpaths := Model.paths_manifest ho (normalize_paths hf)
  have hmanifest : Manifest.ofText model.manifest.text = .ok model.manifest := by
    rw [Manifest.ofText_text, hpaths]
    rfl
  have hread := get?_written hd (Model.manifest_mem_outputs model layout pretty)
  refine ⟨{ layout, manifest := model.manifest }, ?_, rfl, rfl, fun _ => rfl⟩
  exact Previous.ofSource_of_manifest (congrArg Except.ok hread) hmanifest

/-- **The record of every file is read back** and rebuilt to a tree that has it. -/
theorem loadRecord_written
    (hc : ∀ output ∈ model.outputs layout pretty, (Path.checked? output.path).isSome)
    {file : File} (hm : file ∈ model.files) (hf : file.Generated) :
    ∃ tree, Previous.loadRecord (written model layout pretty).read (layout.recordPath file.path)
        = .ok (some tree) ∧
      Record.ofSegment tree = file.record ∧ tree.WellFormed := by
  have hmem := Model.record_mem_outputs layout pretty hm
  have hread := get?_written hd hmem
  obtain ⟨checked, hchecked⟩ := Option.isSome_iff_exists.1 (hc _ hmem)
  obtain ⟨tree, htree, hrecord, hwell⟩ := Record.exists_reload hf.wellFormed
  have hmake : File.make (layout.recordPath file.path) tree = .ok ⟨checked, tree⟩ :=
    File.make_eq_ok_iff.2 ⟨hchecked, rfl⟩
  refine ⟨tree, ?_, hrecord, hwell⟩
  simp only at hread
  rw [Previous.loadRecord, Previous.readText, Store.read, hread]
  simp only [File.ofRecordText, hf.ofText_recordText, File.record, htree, hmake]

end Reading

/-! ## Running again -/

/-- **Merging with what was persisted persists the same.** -/
theorem view_mergeFile {before after : Previous} {file : File} (hf : file.Generated)
    (hb : before.Sound) {tree : Segment} (hcached : after.cached file.path = some tree)
    (hwell : tree.WellFormed)
    (hrecord : Record.ofSegment tree = (mergeFile before file).record) :
    (mergeFile after file).view = (mergeFile before file).view := by
  have hsound : ∀ old, before.cached file.path = some old → old.WellFormed := by
    intro old hc
    exact hb.cached hc
  have hmerged := Segment.ofSegment_merge hf.wellFormed hsound
  have hconsistent := Record.consistent_ofSegment hf.wellFormed
  have hagain : (mergeFile after file).record = (mergeFile before file).record := by
    rw [mergeFile, File.merged, File.record, hcached,
      Segment.ofSegment_merge hf.wellFormed hwell.of_some_eq, Option.map_some, hrecord, mergeFile,
      File.merged, File.record, hmerged]
    -- a record that a merge has given yields to the generated one as it is
    exact Record.merge_of_yields hconsistent (hconsistent.yields_merge _)
  exact congrArg (Prod.mk file.path) hagain

/-- The tree that the record of a path describes, if it reads. -/
def persisted (read : Source) (layout : Layout) (path : String) : Option Segment :=
  match Previous.loadRecord read (layout.recordPath path) with
  | .ok tree => tree
  | .error _ => none

theorem loadRecord_eq_persisted {read : Source} {layout : Layout} {path : String}
    {tree : Option Segment} (h : Previous.loadRecord read (layout.recordPath path) = .ok tree) :
    Previous.loadRecord read (layout.recordPath path)
      = .ok (persisted read layout (Path.normalize path)) := by
  rw [persisted, Layout.recordPath_normalize, h]

/-- A run over what a run of the same files persisted has nothing to report and writes
the same. -/
theorem report_again {read : Source} {opened after : Previous} {files : List File}
    (strict : Bool) {failures : List Failure} (hf : ∀ file ∈ files, file.Generated)
    (hafter : after.Sound) (hheld : ∀ path, opened.held? path = none)
    (hmanifest : opened.manifest.paths = (assemble after failures files).model.paths)
    (hread : ∀ file ∈ (assemble after failures files).model.files, ∃ tree,
      Previous.loadRecord read (opened.layout.recordPath file.path) = .ok (some tree) ∧
        Record.ofSegment tree = file.record ∧ tree.WellFormed) :
    ∃ again, report read strict opened files = .ok again ∧ again.failures = [] ∧
      again.stale = [] ∧ again.model.guidance = none ∧
      again.model.files.map File.view
        = (assemble after failures files).model.files.map File.view := by
  -- every generated path is the path of a file of the model
  have hmodel : ∀ file ∈ files, ∃ merged ∈ (assemble after failures files).model.files,
      merged.path = file.path := by
    intro file hm
    exact List.mem_map.1 (mem_paths_assemble.2 (List.mem_map_of_mem hm))
  have hexpects : Expects (persisted read opened.layout) opened := by
    intro path tree hh
    rw [hheld path] at hh
    cases hh
  have hreads : ∀ file ∈ files, Previous.loadRecord read (opened.layout.recordPath file.path)
      = .ok (persisted read opened.layout (Path.normalize file.path)) := by
    intro file hm
    obtain ⟨merged, hmerged, hpath⟩ := hmodel file hm
    obtain ⟨tree, hload, -⟩ := hread merged hmerged
    rw [hpath] at hload
    exact loadRecord_eq_persisted hload
  obtain ⟨final, hload, hfinal, -, hheldAll⟩ := load_of_reads hexpects strict hreads
  refine ⟨assemble final [] files, by rw [report, hload], rfl, ?_, Model.guidance_ofList _, ?_⟩
  · -- what the manifest lists is generated again
    rw [List.eq_nil_iff_forall_not_mem]
    intro path hp
    have hstale : path ∈ final.manifest.paths ∧
        path ∉ (assemble final [] files).model.paths := Model.mem_stalePaths.1 hp
    rw [manifest_load hload, hmanifest, mem_paths_assemble, mem_paths_assemble] at hstale
    exact hstale.2 hstale.1
  · apply Model.views_eq
    intro path
    have hpath : ∀ (previous : Previous) (file : File),
        (mergeFile previous file).path = file.path := fun _ _ => rfl
    rw [← List.map_reverse, ← List.map_reverse, Keyed.find?_map (hpath final),
      Keyed.find?_map (hpath after)]
    cases hfind : Keyed.find? File.path path files.reverse with
    | none => rfl
    | some file =>
        -- the last generated file of the path, which the model keeps
        have hm : file ∈ files := List.mem_reverse.1 (Keyed.mem_of_find? hfind)
        have hkept : mergeFile after file ∈ (assemble after failures files).model.files := by
          have hfound := find?_assemble after failures files path
          rw [hfind] at hfound
          exact Keyed.mem_of_find? hfound
        obtain ⟨tree, hload, hrecord, hwell⟩ := hread _ hkept
        have hcached : final.cached file.path = some tree := by
          rw [hfinal.cached (hheldAll file hm)]
          have hpersisted := (loadRecord_eq_persisted hload).symm.trans hload
          exact Except.ok.inj hpersisted
        exact congrArg some (view_mergeFile (hf file hm) hafter hcached hwell hrecord)

end Run

open Run in
/-- **The closed loop.** Whatever was there before, let a run over the files of a skeleton
succeed, and let everything it emits go to paths of its own that may name outputs. Put
into a store, the manifest is read back, the record of every file is rebuilt to a tree
of the same record, and running again reports no failure and nothing stale and emits
the same. -/
theorem Report.closed_loop {origin text : String} {skeleton : Skeleton} {files : List File}
    {read : Source} {previous : Previous} {config : Config} {report : Report}
    (hskeleton : Skeleton.ofText origin text = .ok skeleton)
    (hfiles : skeleton.files = .ok files) (hprevious : previous.Sound)
    (hreport : Run.report read config.strict previous files = .ok report)
    (hchecked : ∀ output ∈ report.emitted skeleton config, (Path.checked? output.path).isSome)
    (hdistinct : ((report.emitted skeleton config).map Output.normalized).Nodup) :
    ∃ opened,
      Previous.ofSource (report.leftBehind skeleton config) config.layout = .ok opened ∧
      opened.manifest = report.model.manifest ∧
      (∀ file ∈ report.model.files, ∃ tree after,
        Previous.oldTree (report.leftBehind skeleton config) opened file.path
          = .ok (some tree, after) ∧
        Record.ofSegment tree = file.record) ∧
      ∃ again,
        Run.report (report.leftBehind skeleton config) config.strict opened files = .ok again ∧
        again.failures = [] ∧ again.stale = [] ∧
        again.emitted skeleton config = report.emitted skeleton config := by
  -- whatever was merged with was well formed, so what is persisted can be read
  have hf := Skeleton.files_generated hskeleton hfiles
  obtain ⟨failures, after, hload, rfl⟩ := report_eq_ok hreport
  have hafter := sound_load hprevious hload
  have hmodel := generated_assemble failures hafter hf
  have hincreasing : Sorted.Increasing File.path (assemble after failures files).model.files :=
    Model.increasing_ofList _
  rw [leftBehind, emitted_eq skeleton config (Model.guidance_ofList _)]
  rw [emitted_eq skeleton config (Model.guidance_ofList _)] at hchecked hdistinct
  obtain ⟨opened, hopen, hlayout, hmanifest, hheld⟩ :=
    ofSource_written hdistinct hincreasing hmodel
  have hread : ∀ file ∈ (assemble after failures files).model.files, ∃ tree,
      Previous.loadRecord (written ⟨(assemble after failures files).model.files,
        skeleton.guidance⟩ config.layout config.pretty).read
          (opened.layout.recordPath file.path) = .ok (some tree) ∧
        Record.ofSegment tree = file.record ∧ tree.WellFormed := by
    intro file hm
    rw [hlayout]
    exact loadRecord_written hdistinct hchecked hm (hmodel file hm)
  have hpaths : opened.manifest.paths = (assemble after failures files).model.paths := by
    rw [hmanifest]
    exact Model.paths_manifest hincreasing (normalize_paths hmodel)
  refine ⟨opened, hopen, hmanifest, fun file hm => ?_, ?_⟩
  · obtain ⟨tree, htree, hrecord, -⟩ := hread file hm
    exact ⟨tree, _, Previous.oldTree_fresh (hheld _) htree, hrecord⟩
  · obtain ⟨again, hagain, hfailures, hstale, hguidance, hviews⟩ :=
      report_again config.strict hf hafter hheld hpaths hread
    refine ⟨again, hagain, hfailures, hstale, ?_⟩
    rw [emitted_eq skeleton config hguidance]
    apply Model.outputs_of_views
    · exact hviews
    · rfl

/-! ## A run over edited rows -/

namespace Report.Sample

/-- A skeleton with one file, a list region of two rows, and a guidance document. -/
def text : String :=
  "\x7b\"files\":\x7b\"a.txt\":[\"appendable\",\"r\",\"preserve\",[[\"variable\",\"x\",\"X\"],[\"variable\",\"y\",\"Y\"]]]\x7d,\"guidances\":\"keep\"\x7d"

def skeleton : Skeleton where
  records := [("a.txt", .region "r" .preserve [.editable "x" "X", .editable "y" "Y"])]
  guidance := some (.string "keep")

def files : List File :=
  [⟨"a.txt", .region ⟨"r", .preserve, [.editable "x" "X", .editable "y" "Y"]⟩⟩]

/-- The rows were swapped and one of them was edited; another file is no longer
generated. -/
def before : Previous where
  manifest := ⟨["a.txt", "gone.txt"]⟩
  trees := [("a.txt",
    some (.region ⟨"r", .preserve, [.editable "y" "mine", .editable "x" "X"]⟩))]

def report : Report := Run.assemble before [] files

end Report.Sample

open Report.Sample in
/-- The run keeps the edited rows in their order, and running again finds nothing to
tell, not even the file that the first run reported as stale. -/
theorem Report.closed_loop_rows :
    Skeleton.ofText "skeleton" text = .ok skeleton ∧ skeleton.files = .ok files ∧
    before.Sound ∧ Run.report Store.empty.read Config.standard.strict before files = .ok report ∧
    report.stale = ["gone.txt"] ∧ report.model.files.map File.content = ["mineX"] ∧
    ∃ opened,
      Previous.ofSource (report.leftBehind skeleton Config.standard) Config.standard.layout
        = .ok opened ∧
      opened.manifest = ⟨["a.txt"]⟩ ∧
      ∃ again,
        Run.report (report.leftBehind skeleton Config.standard) Config.standard.strict opened files
          = .ok again ∧
        again.failures = [] ∧ again.stale = [] ∧
        again.emitted skeleton Config.standard = report.emitted skeleton Config.standard := by
  have hskeleton : Skeleton.ofText "skeleton" text = .ok skeleton := by
    rw [text, skeleton]
    cbv
  have hfiles : skeleton.files = .ok files := rfl
  have hbefore : before.Sound := by
    apply Previous.sound_of_trees
    intro entry hm tree ht
    cases List.mem_singleton.1 hm
    cases ht
    decide
  have hreport : Run.report Store.empty.read Config.standard.strict before files = .ok report :=
    rfl
  have hchecked : ∀ output ∈ report.emitted skeleton Config.standard,
      (Path.checked? output.path).isSome := by
    decide
  have hdistinct : ((report.emitted skeleton Config.standard).map Output.normalized).Nodup := by
    decide
  obtain ⟨opened, hopen, hmanifest, -, again⟩ :=
    closed_loop hskeleton hfiles hbefore hreport hchecked hdistinct
  exact ⟨hskeleton, hfiles, hbefore, hreport, by decide, by decide, opened, hopen, hmanifest, again⟩

end Regeneration
