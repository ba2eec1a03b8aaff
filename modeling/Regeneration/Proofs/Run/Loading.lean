import Regeneration.Run.Report
import Regeneration.Proofs.Outcome
import Regeneration.Proofs.Record.Tree

/-!
# Loading the trees of the run before

Whatever is asked of a run before, the trees that it holds were rebuilt from records,
so they are well formed. When every record reads, loading reports no failure and holds
for every file what its record describes.

Main statements: `sound_oldTree`, `sound_load` and `load_of_reads`.
-/

set_option autoImplicit false

namespace Regeneration

open Outcome

namespace Previous

/-- The trees that are held are well formed. -/
def Sound (previous : Previous) : Prop :=
  ∀ path tree, previous.held? path = some (some tree) → tree.WellFormed

theorem sound_of_trees {previous : Previous}
    (h : ∀ entry ∈ previous.trees, ∀ tree, entry.2 = some tree → tree.WellFormed) :
    previous.Sound := by
  intro path tree hheld
  obtain ⟨entry, hfind, htree⟩ := Option.map_eq_some_iff.1 hheld
  exact h entry (List.mem_of_find?_eq_some hfind) tree htree

/-- However a run before is come by, it is sound at first: without a manifest, or read
from a source. -/
theorem sound_empty (layout : Layout) : (empty layout).Sound :=
  fun _ _ h => nomatch h

/-- A run before is opened with the manifest that was read. -/
theorem ofSource_of_manifest {read : Source} {layout : Layout} {text : String}
    {manifest : Manifest} (hread : read layout.manifestPath = .ok (some text))
    (hmanifest : Manifest.ofText text = .ok manifest) :
    ofSource read layout = .ok { layout, manifest } := by
  rw [ofSource, readText, hread]
  simp only [hmanifest]

/-- A run before that was just opened holds nothing. -/
theorem ofSource_eq_ok {read : Source} {layout : Layout} {previous : Previous}
    (h : ofSource read layout = .ok previous) :
    previous.layout = layout ∧ ∀ path, previous.held? path = none := by
  rw [ofSource] at h
  split at h
  · cases h
  · cases h
    exact ⟨rfl, fun _ => rfl⟩
  · split at h
    · cases h
    · cases h
      exact ⟨rfl, fun _ => rfl⟩

theorem sound_ofSource {read : Source} {layout : Layout} {previous : Previous}
    (h : ofSource read layout = .ok previous) : previous.Sound := by
  intro path tree hheld
  rw [(ofSource_eq_ok h).2 path] at hheld
  cases hheld

theorem ofRecordText_eq_ok {path text : String} {file : File}
    (h : File.ofRecordText path text = .ok file) : file.tree.WellFormed := by
  rw [File.ofRecordText] at h
  split at h
  · cases h
  · split at h
    · cases h
    · next tree ht =>
        rw [(File.make_eq_ok_iff.1 h).2]
        exact (Record.toSegment_eq_ok ht).2

theorem wellFormed_of_loadRecord {read : Source} {path : String} {tree : Segment}
    (h : loadRecord read path = .ok (some tree)) : tree.WellFormed := by
  rw [loadRecord] at h
  split at h
  · cases h
  · cases h
  · split at h
    · cases h
    · next file hf =>
        cases h
        exact ofRecordText_eq_ok hf

/-- Asking for a tree answers what is held, or what the record describes, and holds it
from then on. -/
theorem oldTree_eq_ok {read : Source} {previous after : Previous} {path : String}
    {tree : Option Segment} (h : oldTree read previous path = .ok (tree, after)) :
    (previous.held? path = some tree ∧ after = previous) ∨
      (previous.held? path = none ∧
        loadRecord read (previous.layout.recordPath path) = .ok tree ∧
        after = previous.keep path tree) := by
  rw [oldTree] at h
  split at h
  · next held hh =>
      cases h
      exact .inl ⟨hh, rfl⟩
  · next hh =>
      split at h
      · cases h
      · next loaded hl =>
          cases h
          exact .inr ⟨hh, hl, rfl⟩

theorem Sound.keep {previous : Previous} (h : previous.Sound) {path : String}
    {tree : Option Segment} (ht : ∀ found, tree = some found → found.WellFormed) :
    (previous.keep path tree).Sound := by
  intro other found hheld
  rw [held?_keep] at hheld
  split at hheld
  · cases hheld
    exact ht found rfl
  · exact h other found hheld

/-- **Asking for a tree keeps what is held well formed.** -/
theorem sound_oldTree {read : Source} {previous after : Previous} {path : String}
    {tree : Option Segment} (h : previous.Sound)
    (ho : oldTree read previous path = .ok (tree, after)) : after.Sound := by
  rcases oldTree_eq_ok ho with ⟨-, rfl⟩ | ⟨-, hload, rfl⟩
  · exact h
  · apply h.keep
    rintro found rfl
    exact wellFormed_of_loadRecord hload

theorem Sound.cached {previous : Previous} (h : previous.Sound) {path : String}
    {tree : Segment} (hc : previous.cached path = some tree) : tree.WellFormed := by
  apply h path tree
  rw [Previous.cached] at hc
  cases hh : previous.held? path with
  | none =>
      rw [hh] at hc
      cases hc
  | some held =>
      rw [hh] at hc
      exact congrArg some hc

end Previous

namespace Run

/-- **Loading keeps what is held well formed.** -/
theorem sound_load {read : Source} {strict : Bool} {previous after : Previous}
    {files : List File} {failures : List Failure} (h : previous.Sound)
    (hl : load read strict previous files = .ok (failures, after)) : after.Sound := by
  induction files generalizing previous failures after with
  | nil =>
      cases hl
      exact h
  | cons file rest ih =>
      rw [load] at hl
      split at hl
      · next tree next ho => exact ih (Previous.sound_oldTree h ho) hl
      · split at hl
        · cases hl
        · split at hl
          · cases hl
          · next hrest =>
              cases hl
              exact ih h hrest

/-- What a run before holds agrees with what the paths are expected to have. -/
def Expects (expected : String → Option Segment) (previous : Previous) : Prop :=
  ∀ path tree, previous.held? path = some tree → tree = expected (Path.normalize path)

theorem Expects.keep {expected : String → Option Segment} {previous : Previous}
    (h : Expects expected previous) (path : String) :
    Expects expected (previous.keep path (expected (Path.normalize path))) := by
  intro other tree hheld
  rw [Previous.held?_keep] at hheld
  split at hheld
  · next hn =>
      cases hheld
      rw [hn]
  · exact h other tree hheld

theorem Expects.cached {expected : String → Option Segment} {previous : Previous}
    (h : Expects expected previous) {path : String} (hh : (previous.held? path).isSome) :
    previous.cached path = expected (Path.normalize path) := by
  obtain ⟨tree, ht⟩ := Option.isSome_iff_exists.1 hh
  rw [Previous.cached, ht, Option.getD_some, h path tree ht]

section Reads

variable {read : Source} {previous : Previous} {expected : String → Option Segment}
  (h : Expects expected previous)

include h

/-- Asking for a path whose record reads as expected answers so. -/
theorem oldTree_of_reads {path : String}
    (hread : Previous.loadRecord read (previous.layout.recordPath path)
      = .ok (expected (Path.normalize path))) :
    ∃ after, Previous.oldTree read previous path = .ok (expected (Path.normalize path), after) ∧
      Expects expected after ∧ after.layout = previous.layout ∧
      (after.held? path).isSome ∧
      ∀ other, (previous.held? other).isSome → (after.held? other).isSome := by
  cases hh : previous.held? path with
  | some held =>
      have hanswer := Previous.oldTree_held read hh
      rw [h path held hh] at hanswer
      exact ⟨previous, hanswer, h, rfl, by rw [hh]; rfl, fun _ ho => ho⟩
  | none =>
      refine ⟨_, Previous.oldTree_fresh hh hread, h.keep path, rfl, ?_, fun other ho => ?_⟩
      · rw [Previous.held?_keep, if_pos rfl]
        rfl
      · rw [Previous.held?_keep]
        split
        · rfl
        · exact ho

/-- **When every record reads as expected, loading reports no failure**, and the trees
expected are held for all files. -/
theorem load_of_reads (strict : Bool) {files : List File}
    (hreads : ∀ file ∈ files,
      Previous.loadRecord read (previous.layout.recordPath file.path)
        = .ok (expected (Path.normalize file.path))) :
    ∃ after, load read strict previous files = .ok ([], after) ∧
      Expects expected after ∧
      (∀ other, (previous.held? other).isSome → (after.held? other).isSome) ∧
      ∀ file ∈ files, (after.held? file.path).isSome := by
  induction files generalizing previous with
  | nil => exact ⟨previous, rfl, h, fun _ ho => ho, fun _ hm => nomatch hm⟩
  | cons file rest ih =>
      rw [List.forall_mem_cons] at hreads
      obtain ⟨next, hanswer, hnext, hlayout, hhead, hkept⟩ := oldTree_of_reads h hreads.1
      have hrest : ∀ other ∈ rest, Previous.loadRecord read (next.layout.recordPath other.path)
          = .ok (expected (Path.normalize other.path)) := by
        rw [hlayout]
        exact hreads.2
      obtain ⟨after, hload, hexpects, hafter, hheld⟩ := ih hnext hrest
      refine ⟨after, ?_, hexpects, fun other ho => hafter other (hkept other ho), ?_⟩
      · rw [load, hanswer]
        exact hload
      · exact List.forall_mem_cons.2 ⟨hafter _ hhead, hheld⟩

end Reads

end Run

end Regeneration
