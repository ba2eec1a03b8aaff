import Regeneration.Proofs.Path.Records
import Regeneration.Proofs.Run.Specification

/-!
# The files of a run are independent

All files of a run share the source, the trees that are held and the counters. Still none
shows in what becomes of another: whatever the record of one path is, the other paths get
the same files and the same failures. And the order in which files with different paths
are generated shows in nothing but the order of the failures.

Main statement: `runs_apart`. It rests on the records of different files being at different
places (`Layout.normalize_recordPath_injective`).
-/

set_option autoImplicit false

namespace Regeneration

/-- Two sources that answer the same, except perhaps at spellings of one place. -/
def SameApartFrom (place : String) (read other : Source) : Prop :=
  ∀ path, Path.normalize path ≠ Path.normalize place → other path = read path

namespace Run

open Previous

section Sources

variable {read other : Source} {layout : Layout}

/-- The record of another path is loaded alike. -/
theorem loadRecord_apart {q path : String}
    (h : SameApartFrom (layout.recordPath q) read other) (hq : Path.normalize q ≠ "")
    (hpath : Path.normalize path ≠ "") (hne : Path.normalize path ≠ Path.normalize q) :
    loadRecord other (layout.recordPath path) = loadRecord read (layout.recordPath path) := by
  have hplace : Path.normalize (layout.recordPath path)
      ≠ Path.normalize (layout.recordPath q) := by
    intro he
    exact hne (layout.normalize_recordPath_injective hpath hq he)
  rw [loadRecord, loadRecord, readText, readText, h _ hplace]

theorem persisted_congr {path : String}
    (h : loadRecord other (layout.recordPath path) = loadRecord read (layout.recordPath path)) :
    persisted other layout path = persisted read layout path := by
  rw [persisted, persisted, h]

/-- Leaving out the failures of some paths is leaving out their files. -/
theorem filter_loadFailures (keep : String → Bool) (files : List File) :
    (loadFailures read layout files).filter (fun failure => keep failure.path)
      = loadFailures read layout (files.filter fun file => keep file.path) := by
  rw [loadFailures, loadFailures, List.filter_filterMap, List.filterMap_filter]
  apply List.filterMap_congr
  intro file _
  cases hkeep : keep file.path with
  | false => cases loadError? read layout file.path <;> simp [hkeep]
  | true => cases loadError? read layout file.path <;> simp [hkeep]

theorem loadFailures_congr {files : List File}
    (h : ∀ file ∈ files, loadRecord other (layout.recordPath file.path)
      = loadRecord read (layout.recordPath file.path)) :
    loadFailures other layout files = loadFailures read layout files := by
  rw [loadFailures, loadFailures]
  apply List.filterMap_congr
  intro file hm
  rw [loadError?, loadError?, h file hm]

/-- Failures come in the order of their files. -/
theorem paths_loadFailures_sublist (files : List File) :
    ((loadFailures read layout files).map Failure.path).Sublist (files.map File.path) := by
  induction files with
  | nil => exact List.Sublist.refl _
  | cons file rest ih =>
      cases hload : loadRecord read (layout.recordPath file.path) with
      | ok tree =>
          rw [loadFailures_cons_of_ok rest hload]
          exact ih.cons file.path
      | error error =>
          rw [loadFailures_cons_of_error rest hload]
          exact ih.cons_cons file.path

end Sources

end Run

open Run

namespace Report

section Described

variable {read other : Source} {layout : Layout} {manifest : Manifest} {files others : List File}
  {result result' : Report}

/-- What is stale depends on the generated paths only. -/
theorem Describes.stale_eq (h : Describes read layout manifest files result)
    (h' : Describes other layout manifest others result')
    (hpaths : ∀ path, path ∈ others.map File.path ↔ path ∈ files.map File.path) :
    result'.stale = result.stale := by
  apply Sorted.eq_of_mem_iff h'.stale_increasing h.stale_increasing
  intro path
  rw [h'.mem_stale, h.mem_stale, h'.mem_paths, h.mem_paths, hpaths]

/-- The file at a path depends on the path's own record only. -/
theorem Describes.get?_eq (h : Describes read layout manifest files result)
    (h' : Describes other layout manifest files result') {path : String}
    (hload : ∀ file ∈ files, file.path = Path.normalize path →
      Previous.loadRecord other (layout.recordPath file.path)
        = Previous.loadRecord read (layout.recordPath file.path)) :
    result'.model.get? path = result.model.get? path := by
  rw [Model.get?, Model.get?, h'.file, h.file]
  apply Option.map_congr
  intro file hfind
  have hkey := Keyed.key_of_find? hfind
  have hm : file ∈ files := List.mem_reverse.1 (Keyed.mem_of_find? hfind)
  rw [← hkey, persisted_congr (hload file hm hkey)]

/-- Accepted files have paths in normalized spelling, which are not empty. -/
theorem path_of_accepted {file : File} (h : ∃ path tree, File.make path tree = .ok file) :
    Path.normalize file.path = file.path ∧ Path.normalize file.path ≠ "" := by
  obtain ⟨path, tree, hmake⟩ := h
  have hnormal := File.normalize_of_make hmake
  obtain ⟨hpath, hne, -⟩ := Path.checked?_eq_some_iff.1 (File.make_eq_ok_iff.1 hmake).1
  exact ⟨hnormal, by rwa [hnormal, hpath]⟩

/-- Over sources that differ in the record of one path, runs differ in what concerns that
path. -/
theorem Describes.apart (h : Describes read layout manifest files result)
    (h' : Describes other layout manifest files result')
    (hfiles : ∀ file ∈ files, ∃ path tree, File.make path tree = .ok file) {q : String}
    (hq : q ∈ files.map File.path) (hsame : SameApartFrom (layout.recordPath q) read other) :
    (∀ path, Path.normalize path ≠ q → result'.model.get? path = result.model.get? path) ∧
      result'.stale = result.stale ∧
      result'.failures.filter (fun failure => failure.path != q)
        = result.failures.filter (fun failure => failure.path != q) := by
  obtain ⟨changed, hchanged, rfl⟩ := List.mem_map.1 hq
  obtain ⟨hnormal, hne⟩ := path_of_accepted (hfiles changed hchanged)
  -- the record of a file with another path is at another place
  have hload : ∀ file ∈ files, file.path ≠ changed.path →
      Previous.loadRecord other (layout.recordPath file.path)
        = Previous.loadRecord read (layout.recordPath file.path) := by
    intro file hm hpath
    obtain ⟨hnormalFile, hneFile⟩ := path_of_accepted (hfiles file hm)
    apply loadRecord_apart hsame hne hneFile
    rwa [hnormal, hnormalFile]
  refine ⟨?_, h.stale_eq h' fun _ => Iff.rfl, ?_⟩
  · intro path hpath
    apply h.get?_eq h'
    intro file hm hkey
    exact hload file hm (hkey ▸ hpath)
  · rw [h'.failures, h.failures, filter_loadFailures (fun path => path != changed.path),
      filter_loadFailures (fun path => path != changed.path)]
    apply loadFailures_congr
    intro file hm
    obtain ⟨hfile, hkept⟩ := List.mem_filter.1 hm
    exact hload file hfile (bne_iff_ne.1 hkept)

/-- Files with different paths may be generated in any order. -/
theorem Describes.permuted (h : Describes read layout manifest files result)
    (h' : Describes read layout manifest others result') (hd : (files.map File.path).Nodup)
    (hperm : files.Perm others) :
    result'.model = result.model ∧ result'.stale = result.stale ∧ result'.stats = result.stats ∧
      result'.failures.Perm result.failures ∧
      (result'.failures.map Failure.path).Sublist (others.map File.path) := by
  -- as no path repeats, what is found at it does not depend on the order
  have hreverse : others.reverse.Perm files.reverse :=
    (List.reverse_perm others).trans (hperm.symm.trans (List.reverse_perm files).symm)
  have hdReverse : (others.reverse.map File.path).Nodup := by
    rw [(hreverse.map File.path).nodup_iff, List.map_reverse, List.nodup_reverse]
    exact hd
  have hmodel : result'.model.files = result.model.files := by
    apply Sorted.eq_of_find?_eq h'.increasing h.increasing
    intro path
    rw [h'.file, h.file, Keyed.find?_perm hreverse hdReverse]
  refine ⟨Model.ext hmodel (h'.guidance.trans h.guidance.symm), ?_, ?_, ?_, ?_⟩
  · apply h.stale_eq h'
    intro path
    rw [(hperm.map File.path).mem_iff]
  · rw [h'.stats, h.stats]
    exact MergeStats.sums_perm (hperm.map _).symm
  · rw [h'.failures, h.failures]
    exact (hperm.filterMap _).symm
  · rw [h'.failures]
    exact paths_loadFailures_sublist others

end Described

/-- **The files of a run are independent.** Take a run that is not strict, over accepted
files, whatever was asked for before and in whichever order they are merged.

Run over a source that differs only in the record of one generated path, it gives the same
files at all other paths, the same stale paths and the same failures of other paths.

With the files in another order, if their paths differ, it gives the same model, outputs,
stale paths and counters, and the same failures in the order of the files. -/
theorem runs_apart {read : Source} {layout : Layout} {opened : Previous} {files : List File}
    (hopen : Previous.ofSource read layout = .ok opened)
    (hfiles : ∀ file ∈ files, ∃ path tree, File.make path tree = .ok file)
    (config : Config) (hstrict : config.strict = false) (asked : List String)
    (schedule : Schedule files.length) :
    ∃ result,
      regenerate config read (opened.afterAsking read asked) files schedule = .ok result ∧
      (∀ (other : Source) (opened' : Previous) (q : String) (asked' : List String)
          (schedule' : Schedule files.length),
        Previous.ofSource other layout = .ok opened' → opened'.manifest = opened.manifest →
        q ∈ files.map File.path → SameApartFrom (layout.recordPath q) read other →
        ∃ result',
          regenerate config other (opened'.afterAsking other asked') files schedule'
            = .ok result' ∧
          (∀ path, Path.normalize path ≠ q →
            result'.model.get? path = result.model.get? path) ∧
          result'.stale = result.stale ∧
          result'.failures.filter (fun failure => failure.path != q)
            = result.failures.filter (fun failure => failure.path != q)) ∧
      ∀ (others : List File) (asked' : List String) (schedule' : Schedule others.length),
        (files.map File.path).Nodup → files.Perm others →
        ∃ result',
          regenerate config read (opened.afterAsking read asked') others schedule'
            = .ok result' ∧
          result'.model = result.model ∧ result'.outputs config = result.outputs config ∧
          result'.stale = result.stale ∧ result'.stats = result.stats ∧
          result'.failures.Perm result.failures ∧
          (result'.failures.map Failure.path).Sublist (others.map File.path) := by
  have hmanifest := increasing_of_ofSource hopen
  have hgives : ∀ (source : Source) (start : Previous) (asked : List String)
      (generated : List File) (schedule : Schedule generated.length),
      Previous.ofSource source layout = .ok start →
      regenerate config source (start.afterAsking source asked) generated schedule
        = .ok (expected source layout start.manifest generated) := by
    intro source start asked generated schedule hstart
    rw [regenerate_afterAsking hstart, hstrict, judge_false]
  have hdescribed := describes_expected read layout hmanifest files
  refine ⟨_, hgives read opened asked files schedule hopen, ?_, ?_⟩
  · intro other opened' q asked' schedule' hopen' hsameManifest hq hsame
    have hdescribed' := describes_expected other layout hmanifest files
    refine ⟨_, hgives other opened' asked' files schedule' hopen', ?_⟩
    rw [hsameManifest]
    exact hdescribed.apart hdescribed' hfiles hq hsame
  · intro others asked' schedule' hd hperm
    have hdescribed' := describes_expected read layout hmanifest others
    obtain ⟨hmodel, hstale, hstats, hfailures, horder⟩ := hdescribed.permuted hdescribed' hd hperm
    refine ⟨_, hgives read opened asked' others schedule' hopen, hmodel, ?_, hstale, hstats,
      hfailures, horder⟩
    rw [outputs, outputs, hmodel]

/-! ## A record that was repaired -/

namespace Mixed

/-- The source with a record that reads for `b.txt`, in every spelling. -/
def repaired : Source := fun path =>
  if Path.normalize path = "traces/b.txt.traces" then .ok (some recordText) else source path

def distinctFiles : List File :=
  [⟨"a.txt", .editable "x" "A"⟩, ⟨"b.txt", .editable "x" "B"⟩, ⟨"c.txt", .editable "x" "C"⟩]

end Mixed

open Mixed in
/-- The repaired record changes nothing for the other files, nor does the order. -/
theorem runs_apart_repaired :
    Previous.ofSource source .standard = .ok opened ∧
    Previous.ofSource repaired .standard = .ok opened ∧
    (∀ file ∈ distinctFiles, ∃ path tree, File.make path tree = .ok file) ∧
    repaired "traces/b.txt.traces" ≠ source "traces/b.txt.traces" ∧
    ∃ result,
      regenerate .standard source opened distinctFiles (.inTurn 3) = .ok result ∧
      (∃ result',
        regenerate .standard repaired (opened.afterAsking repaired ["a.txt"]) distinctFiles
          (.backwards 3) = .ok result' ∧
        result'.model.get? "./a.txt" = result.model.get? "./a.txt" ∧
        result'.stale = result.stale ∧
        result'.failures.filter (fun failure => failure.path != "b.txt")
          = result.failures.filter (fun failure => failure.path != "b.txt")) ∧
      ∃ result',
        regenerate .standard source opened distinctFiles.reverse (.inTurn 3) = .ok result' ∧
        result'.outputs .standard = result.outputs .standard ∧ result'.stats = result.stats ∧
        result'.failures.Perm result.failures := by
  have hrepaired : Previous.ofSource repaired .standard = .ok opened :=
    Previous.ofSource_of_manifest rfl ofText_manifestText
  have hfiles : ∀ file ∈ distinctFiles, ∃ path tree, File.make path tree = .ok file := by
    intro file hm
    refine ⟨file.path, file.tree, File.make_eq_ok_iff.2 ⟨?_, rfl⟩⟩
    revert file
    decide
  have hsame : SameApartFrom (Layout.standard.recordPath "b.txt") source repaired := by
    intro path hne
    exact if_neg hne
  have hdiffers : repaired "traces/b.txt.traces" ≠ source "traces/b.txt.traces" := by
    decide
  obtain ⟨result, hrun, hsources, horder⟩ :=
    runs_apart ofSource_source hfiles .standard rfl [] (.inTurn 3)
  obtain ⟨other, hother, hget, hstale, hfailures⟩ :=
    hsources repaired opened "b.txt" ["a.txt"] (.backwards 3) hrepaired rfl (by decide) hsame
  obtain ⟨reversed, hreversed, -, houtputs, -, hstats, hperm, -⟩ :=
    horder distinctFiles.reverse [] (.inTurn 3) (by decide) (List.reverse_perm _).symm
  exact ⟨ofSource_source, hrepaired, hfiles, hdiffers, result, hrun,
    ⟨other, hother, hget "./a.txt" (by decide), hstale, hfailures⟩,
    reversed, hreversed, houtputs, hstats, hperm⟩

end Report

end Regeneration
