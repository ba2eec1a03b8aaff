import Regeneration.Proofs.Merge.Recorded
import Regeneration.Segment.Sample

/-!
# Persistence and merging

Writing a tree as a record and rebuilding it loses the history and the stored
orders of synchronized segments, and so does flattening one of them. No merge can
tell: what a merge emits and counts is determined by the records of the trees it
is given.

Main statement: `merge_reload`. The reason is `agree_of_records`, which follows
from the records of merges being merges of records.
-/

set_option autoImplicit false

namespace Regeneration.Segment

/-- Two trees that emit the same: equal records and equal texts. -/
def SameEmission (tree other : Segment) : Prop :=
  Record.ofSegment tree = Record.ofSegment other ∧ tree.render = other.render

/-- Equal records are enough to emit the same. -/
theorem sameEmission_of_record {tree other : Segment}
    (h : Record.ofSegment tree = Record.ofSegment other) : SameEmission tree other :=
  ⟨h, by rw [← Record.leafText_ofSegment, h, Record.leafText_ofSegment]⟩

/-- Two merges of which nothing emitted or counted differs. -/
def Agree (new : Segment) (before : Option Segment) (new' : Segment)
    (before' : Option Segment) : Prop :=
  SameEmission (merge new before) (merge new' before') ∧
    mergeStats new before = mergeStats new' before'

/-- **A merge sees of its trees only their records.** -/
theorem agree_of_records {new new' : Segment} {before before' : Option Segment}
    (hnew : new.WellFormed) (hnew' : new'.WellFormed)
    (hb : ∀ old, before = some old → old.WellFormed)
    (hb' : ∀ old, before' = some old → old.WellFormed)
    (hrecord : Record.ofSegment new = Record.ofSegment new')
    (hbefore : before.map Record.ofSegment = before'.map Record.ofSegment) :
    Agree new before new' before' := by
  constructor
  · apply sameEmission_of_record
    rw [ofSegment_merge hnew hb, ofSegment_merge hnew' hb', hrecord, hbefore]
  · rw [mergeStats_ofSegment hnew hb, mergeStats_ofSegment hnew' hb', hrecord, hbefore]

/-! ## Flattening in place -/

/-- The tree with the synchronized segment at a live place flattened to a plain list
region; the tree itself if the place holds no such segment. -/
def flattenAt : List String → Segment → Segment
  | [], .synchronized merged _ order => .region (flatten merged order)
  | [], tree => tree
  | id :: ids, tree =>
    tree.mapChildren fun child => if child.id = id then flattenAt ids child else child

theorem id_flattenAt (ids : List String) (tree : Segment) : (flattenAt ids tree).id = tree.id := by
  cases ids <;> cases tree <;> rfl

/-- A function on children that keeps their records keeps the record. -/
theorem ofSegment_mapChildren {tree : Segment} {f : Segment → Segment}
    (hf : ∀ child ∈ tree.children, Record.ofSegment (f child) = Record.ofSegment child) :
    Record.ofSegment (tree.mapChildren f) = Record.ofSegment tree := by
  have hmap : (tree.children.map f).map Record.ofSegment = tree.children.map Record.ofSegment := by
    rw [List.map_map]
    exact List.map_congr_left hf
  cases tree with
  | literal => rfl
  | editable => rfl
  | composite | region | synchronized =>
      simp only [children] at hmap
      simp only [mapChildren, Record.ofSegment, Record.ofSegments_eq_map, hmap]

theorem flattenAt_spec {tree : Segment} (h : tree.WellFormed) (ids : List String) :
    (flattenAt ids tree).WellFormed ∧
      Record.ofSegment (flattenAt ids tree) = Record.ofSegment tree := by
  induction ids generalizing tree with
  | nil =>
      cases tree with
      | synchronized => exact ⟨wellFormed_flatten h, Record.ofSegment_flatten h⟩
      | literal | editable | composite | region => exact ⟨h, rfl⟩
  | cons id ids ih =>
      have hstep : ∀ child ∈ tree.children,
          (if child.id = id then flattenAt ids child else child).WellFormed ∧
            Record.ofSegment (if child.id = id then flattenAt ids child else child)
              = Record.ofSegment child := by
        intro child hc
        split
        · exact ih (h.each hc)
        · exact ⟨h.each hc, rfl⟩
      constructor
      · apply h.mapChildren
        · intro child
          split
          · exact id_flattenAt ids child
          · rfl
        · intro child hc
          exact (hstep child hc).1
      · apply ofSegment_mapChildren
        intro child hc
        exact (hstep child hc).2

/-! ## Transparency -/

/-- **Persistence is transparent to merging.** Both trees always reload, and merging
the reloaded trees emits and counts what merging the trees does, with a former tree
and without one. Flattening a synchronized segment, at any live place, keeps the
record and changes no merge, whether its tree is the former or the new one. -/
theorem merge_reload {new old : Segment} (hnew : new.WellFormed) (hold : old.WellFormed) :
    (∃ new' old', (Record.ofSegment new).toSegment = .ok new' ∧
      (Record.ofSegment old).toSegment = .ok old' ∧
      Agree new (some old) new' (some old') ∧ Agree new none new' none) ∧
    (∀ ids, SameEmission (flattenAt ids old) old ∧
      Agree new (some (flattenAt ids old)) new (some old) ∧
      Agree (flattenAt ids new) (some old) new (some old) ∧
      Agree (flattenAt ids new) none new none) := by
  have hnone : ∀ other : Segment, none = some other → other.WellFormed := by
    intro other e
    cases e
  constructor
  · -- a reloaded tree has the record of the tree
    obtain ⟨new', hn, hnr, hnw⟩ := Record.exists_reload hnew
    obtain ⟨old', ho, hor, how⟩ := Record.exists_reload hold
    refine ⟨new', old', hn, ho, ?_, ?_⟩
    · exact agree_of_records hnew hnw hold.of_some_eq how.of_some_eq hnr.symm
        (congrArg some hor.symm)
    · exact agree_of_records hnew hnw hnone hnone hnr.symm rfl
  · -- and so has a flattened one
    intro ids
    obtain ⟨hfnew, hrnew⟩ := flattenAt_spec hnew ids
    obtain ⟨hfold, hrold⟩ := flattenAt_spec hold ids
    refine ⟨sameEmission_of_record hrold, ?_, ?_, ?_⟩
    · exact agree_of_records hnew hnew hfold.of_some_eq hold.of_some_eq rfl
        (congrArg some hrold)
    · exact agree_of_records hfnew hnew hold.of_some_eq hold.of_some_eq hrnew rfl
    · exact agree_of_records hfnew hnew hnone hnone hrnew rfl

/-- The merged rows lose their history on reloading and on flattening, and no merge
of the two rows notices. -/
theorem merge_reload_rows :
    WellFormed Sample.twoRows ∧ WellFormed Sample.mergedRows ∧
    (∃ new' old', (Record.ofSegment Sample.twoRows).toSegment = .ok new' ∧
      (Record.ofSegment Sample.mergedRows).toSegment = .ok old' ∧
      Agree Sample.twoRows (some Sample.mergedRows) new' (some old')) ∧
    Agree Sample.twoRows (some (flattenAt ["rows"] Sample.mergedRows)) Sample.twoRows
      (some Sample.mergedRows) := by
  have hnew : WellFormed Sample.twoRows := by decide
  have hold : WellFormed Sample.mergedRows := by decide
  obtain ⟨⟨new', old', hn, ho, hagree, -⟩, hflat⟩ := merge_reload hnew hold
  obtain ⟨-, hafter, -, -⟩ := hflat ["rows"]
  exact ⟨hnew, hold, ⟨new', old', hn, ho, hagree⟩, hafter⟩

end Regeneration.Segment
