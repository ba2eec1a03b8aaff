import Regeneration.Proofs.Disk.Reading

/-!
# Records on a disk

A store keeps texts under normalized paths and looks them up under normalized paths, so
it gives back whatever was put there. A disk is written under normalized paths and read
under the paths that the layout makes. It gives the manifest and the records back if the
layout is plain. With an empty or absolute directory, or one with backslashes, they are
written and not found.

Main statements: `read_written` and `read_written_misses`.
-/

set_option autoImplicit false

namespace Regeneration

/-! ## Plain layouts -/

/-- Layouts whose paths are plain: a relative directory, and no backslashes. -/
structure Layout.Plain (layout : Layout) : Prop where
  directory_ne_empty : layout.directory ≠ ""
  directory : Path.Plain layout.directory
  suffix : '\\' ∉ layout.suffix.toList
  manifest : '\\' ∉ layout.manifest.toList

theorem Path.plain_append {path rest : String} (hne : path ≠ "") (h : Path.Plain path)
    (hrest : '\\' ∉ rest.toList) : Path.Plain (path ++ rest) := by
  have hchars : path.toList ≠ [] := mt String.toList_eq_nil_iff.1 hne
  obtain ⟨hhead, hback⟩ := h
  rw [Path.Plain, String.toList_append, List.head?_append_of_ne_nil _ hchars]
  exact ⟨hhead, by simp [hback, hrest]⟩

namespace Layout.Plain

variable {layout : Layout} (h : layout.Plain)

include h

theorem manifestPath : Path.Plain layout.manifestPath := by
  rw [Layout.manifestPath, String.append_assoc]
  apply Path.plain_append h.directory_ne_empty h.directory
  simp [h.manifest]

theorem recordPath (path : String) : Path.Plain (layout.recordPath path) := by
  have hnormal := Path.backslash_not_mem_normalize path
  rw [Layout.recordPath, String.append_assoc, String.append_assoc]
  apply Path.plain_append h.directory_ne_empty h.directory
  simp [h.suffix, hnormal]

end Layout.Plain

namespace Model

/-- **What was written is read.** If all that a model has to write was written below a
directory, to distinct places, every output is read there under its normalized path, as
it is from a store with the same outputs. With a plain layout the manifest and every
record are read under the paths that the layout makes. -/
theorem read_written {root : DiskPath} {disk after : Disk} {model : Model} {layout : Layout}
    {pretty : Bool} (h : Disk.writeAll root disk (model.outputs layout pretty) = (.ok (), after))
    (hd : ((model.outputs layout pretty).map fun output => Path.location output.path).Nodup) :
    (∀ output ∈ model.outputs layout pretty,
      Reading.below after.readText root (Path.normalize output.path)
          = .ok (some output.contents) ∧
        (Store.empty.putOutputs (model.outputs layout pretty)).read output.path
          = .ok (some output.contents)) ∧
    (layout.Plain →
      Reading.below after.readText root layout.manifestPath = .ok (some model.manifest.text) ∧
      ∀ file ∈ model.files, Reading.below after.readText root (layout.recordPath file.path)
        = .ok (some (file.recordText pretty))) := by
  have hread := Disk.read_writeAll h hd
  -- outputs at distinct places have distinct normalized paths
  have hpaths : ((model.outputs layout pretty).map Output.normalized).Nodup := by
    refine List.Nodup.of_map Path.location ?_
    rw [List.map_map]
    simp only [Function.comp_def, Output.normalized, Path.location_normalize]
    exact hd
  constructor
  · intro output hm
    exact ⟨(hread output hm).1, congrArg Except.ok (Store.get?_of_distinct hpaths hm)⟩
  · intro hplain
    constructor
    · exact (hread _ (manifest_mem_outputs model layout pretty)).2 hplain.manifestPath
    · intro file hm
      exact (hread _ (record_mem_outputs layout pretty hm)).2 (hplain.recordPath file.path)

namespace Sample

/-- One file. -/
def single : Model := .ofList [letter "a.txt" "A"]

def root : DiskPath := .ofText "out"

/-- What writing the file with a layout comes to, on a disk with nothing on it. -/
def attempt (layout : Layout) : Except RunError Unit × Disk :=
  Disk.writeAll root (Disk.fresh ["work"]) (single.outputs layout false)

theorem attempt_eq {layout : Layout} (h : (attempt layout).1 = .ok ()) :
    Disk.writeAll root (Disk.fresh ["work"]) (single.outputs layout false)
      = (.ok (), (attempt layout).2) := by
  have hpair : attempt layout = ((attempt layout).1, (attempt layout).2) :=
    (Prod.eta _).symm
  rw [h] at hpair
  exact hpair

/-- What is read under a path after the file was written with a layout. -/
def readBack (layout : Layout) (path : String) : Except DiskFault (Option String) :=
  Reading.below (attempt layout).2.readText root path

def dotted : Layout := { directory := "./traces" }

end Sample

/-- The manifest is read back with a layout whose directory begins with a dot. -/
theorem read_written_dotted :
    (Sample.attempt Sample.dotted).1 = .ok () ∧
    ((Sample.single.outputs Sample.dotted false).map fun output =>
      Path.location output.path).Nodup ∧
    Sample.dotted.Plain ∧
    Sample.readBack Sample.dotted "./traces/tracedFiles.json"
      = .ok (some "\x7b\"tracedFiles\":[\"a.txt\"]\x7d") := by
  have hwrite : (Sample.attempt Sample.dotted).1 = .ok () := by decide +kernel
  have hdistinct : ((Sample.single.outputs Sample.dotted false).map fun output =>
      Path.location output.path).Nodup := by decide +kernel
  have hplain : Sample.dotted.Plain := by
    constructor <;> decide
  obtain ⟨-, hread⟩ := read_written (Sample.attempt_eq hwrite) hdistinct
  exact ⟨hwrite, hdistinct, hplain, (hread hplain).1⟩

/-- The file, its record and the manifest are all written to distinct places; a store
gives the manifest back and the disk does not. -/
def Missed (layout : Layout) : Prop :=
  (Sample.attempt layout).1 = .ok () ∧
    ((Sample.single.outputs layout false).map fun output => Path.location output.path).Nodup ∧
    (Store.empty.putOutputs (Sample.single.outputs layout false)).read layout.manifestPath
      = .ok (some Sample.single.manifest.text) ∧
    Sample.readBack layout layout.manifestPath = .ok none

instance (layout : Layout) : Decidable (Missed layout) :=
  inferInstanceAs (Decidable (_ ∧ _ ∧ _ ∧ _))

/-- **A layout can make the read miss what was written**: one with an empty directory,
and one with a backslash in it. -/
theorem read_written_misses :
    Missed { directory := "" } ∧ Missed { directory := "gen\\traces" } := by
  decide +kernel

end Model

end Regeneration
