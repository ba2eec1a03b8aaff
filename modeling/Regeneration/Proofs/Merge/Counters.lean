import Mathlib.Algebra.Group.Hom.Basic
import Mathlib.Data.List.Flatten
import Mathlib.Data.List.Nodup
import Regeneration.Proofs.Merge.Counting
import Regeneration.Proofs.Merge.Emission
import Regeneration.Segment.Sample

/-!
# What the counters of a merge count

Every live place of the new tree is accounted for. An editable leaf is preserved if its
place continues one of the former tree and defaulted if not. A child of a list region is
introduced if its own place continues none, whatever the reason: it is new, its former self
has another shape, or the region around it has no former place. A list region whose place
continues one has dropped the former ids that it does not have.

The counters are computed by the recursion of the merge, in which what is left of the
former tree is handed down. The places are listed once and for all (`places`), and whether
one continues a former place is a matter of the two trees alone.

Main statement: `counters_merge`. The step to one segment and its children is
`mergeStats_step`, and `mergeStats_eq_sum` is the sum over all places.
-/

set_option autoImplicit false

namespace Regeneration.Segment

/-! ## The live places of a tree -/

mutual
/-- The live places of a tree: its root, and below each child the places of the child. -/
def places : Segment → List (List String)
  | .literal .. | .editable .. => [[]]
  | .composite _ children => [] :: placesBelow children
  | .region ⟨_, _, children⟩ => [] :: placesBelow children
  | .synchronized ⟨_, _, children⟩ _ _ => [] :: placesBelow children
termination_by structural tree => tree

/-- The places of several trees, each below the id of its tree. -/
def placesBelow : List Segment → List (List String)
  | [] => []
  | child :: rest => (places child).map (child.id :: ·) ++ placesBelow rest
termination_by structural trees => trees
end

theorem placesBelow_eq_flatMap (children : List Segment) :
    placesBelow children = children.flatMap fun child => child.places.map (child.id :: ·) := by
  induction children with
  | nil => rfl
  | cons child rest ih => rw [placesBelow, ih, List.flatMap_cons]

theorem places_eq (tree : Segment) :
    tree.places
      = [] :: tree.children.flatMap fun child => child.places.map (child.id :: ·) := by
  cases tree with
  | literal | editable => rfl
  | composite | region | synchronized => rw [places, placesBelow_eq_flatMap, Segment.children]

/-- **The places are the live ones.** -/
theorem mem_places {tree : Segment} (h : tree.WellFormed) {ids : List String} :
    ids ∈ tree.places ↔ (tree.live? ids).isSome := by
  induction tree using children_induction generalizing ids with
  | step tree ih =>
      rw [places_eq]
      cases ids with
      | nil => simp [live?]
      | cons id ids =>
          simp only [List.mem_cons, reduceCtorEq, false_or, List.mem_flatMap, List.mem_map,
            List.cons.injEq, live?, Option.isSome_bind]
          constructor
          · -- a listed child is the one that is looked up, as no other has its id
            rintro ⟨child, hm, below, hbelow, hid, rfl⟩
            rw [h.liveChild?_eq_some_iff.2 ⟨hm, hid⟩]
            exact (ih child hm (h.each hm)).1 hbelow
          · intro hsome
            cases hc : tree.liveChild? id with
            | none => simp [hc] at hsome
            | some child =>
                rw [hc] at hsome
                obtain ⟨hm, hid⟩ := h.liveChild?_eq_some_iff.1 hc
                exact ⟨child, hm, ids, (ih child hm (h.each hm)).2 hsome, hid, rfl⟩

/-- **No place is listed twice.** -/
theorem nodup_places {tree : Segment} (h : tree.WellFormed) : tree.places.Nodup := by
  induction tree using children_induction with
  | step tree ih =>
      rw [places_eq, List.nodup_cons, List.nodup_flatMap]
      refine ⟨by simp, ?_, ?_⟩
      · intro child hm
        exact (ih child hm (h.each hm)).map fun _ _ he => (List.cons.inj he).2
      · -- children have distinct ids, and their places begin with these
        refine (List.pairwise_map.1 h.distinct).imp ?_
        intro child other hne ids hids hothers
        obtain ⟨_, -, rfl⟩ := List.mem_map.1 hids
        obtain ⟨_, -, he⟩ := List.mem_map.1 hothers
        exact hne (List.cons.inj he).1.symm

/-! ## What a place adds -/

/-- Continuing a place of the former tree, if there is one, can be decided. -/
instance decidableMatchedIn (new : Segment) (before : Option Segment) (ids : List String) :
    Decidable (MatchedIn new before ids) :=
  match before with
  | none => isFalse fun ⟨_, h, _⟩ => nomatch h
  | some _ => decidable_of_iff _ matchedIn_some_iff.symm

/-- Whether a place is that of a child of a list region. -/
def InList (tree : Segment) (ids : List String) : Prop :=
  ids ≠ [] ∧ tree.shapeAt? ids.dropLast = some .region

instance (tree : Segment) (ids : List String) : Decidable (tree.InList ids) :=
  inferInstanceAs (Decidable (_ ∧ _))

/-- How many of the ids that the former tree emits at a place the new tree does not have
there. -/
def droppedAt (new : Segment) (before : Option Segment) (ids : List String) : Nat :=
  ((before.map fun old => old.emittedAt ids).getD []).countP fun id => id ∉ new.emittedAt ids

/-- What a place of the new tree adds to the counters. -/
def statsAt (new : Segment) (before : Option Segment) (ids : List String) : MergeStats where
  preserved := if new.shapeAt? ids = some .editable ∧ MatchedIn new before ids then 1 else 0
  defaulted := if new.shapeAt? ids = some .editable ∧ ¬ MatchedIn new before ids then 1 else 0
  dropped := if new.shapeAt? ids = some .region ∧ MatchedIn new before ids then
    droppedAt new before ids else 0
  introduced := if new.InList ids ∧ ¬ MatchedIn new before ids then 1 else 0

/-! ## One step -/

theorem isList_iff_shape {kind : SegmentKind} : kind.isList = true ↔ kind.shape = .region := by
  cases kind <;> decide

theorem inList_cons {tree child : Segment} {id : String} (hc : tree.liveChild? id = some child)
    (ids : List String) :
    tree.InList (id :: ids) ↔ if ids = [] then tree.kind.isList = true else child.InList ids := by
  cases ids with
  | nil => simp [InList, shapeAt?, live?, isList_iff_shape]
  | cons next ids => simp [InList, shapeAt?_cons, hc]

/-- The former ids of a continuing place are those of what is left of the former tree. -/
theorem droppedAt_cons {new child : Segment} {before : Option Segment} {id : String}
    {ids : List String} (hc : new.liveChild? id = some child)
    (hm : MatchedIn new before (id :: ids)) :
    droppedAt new before (id :: ids) = droppedAt child (inherited new before id) ids := by
  obtain ⟨old, rfl, hshape, -, former, -, hf, -⟩ := hm
  have hinherited : inherited new (some old) id = some former :=
    inherited_eq_some_iff.2 ⟨old, rfl, hshape, hf⟩
  simp only [droppedAt, hinherited, Option.map_some, Option.getD_some, emittedAt_cons hc,
    emittedAt_cons hf]

theorem continues_iff {child : Segment} {before : Option Segment} :
    continues child before = true ↔ MatchedIn child before [] := by
  cases before with
  | none => simp [continues, MatchedIn]
  | some former => simp [continues, matchedIn_some_iff, Matched]

/-- What a child's own place adds to the counters, as that of a child of a list region. -/
def entryStats (new : Segment) (before : Option Segment) (child : Segment) : MergeStats :=
  ⟨0, 0, 0,
    if new.kind.isList = true ∧ ¬ MatchedIn child (inherited new before child.id) [] then 1 else 0⟩

theorem entryStats_of_list {new : Segment} (h : new.kind.isList = true) (before : Option Segment)
    (child : Segment) :
    entryStats new before child = introducedStats child (inherited new before child.id) := by
  simp only [entryStats, introducedStats, h, true_and, ite_not, ← continues_iff]
  split <;> rfl

theorem entryStats_of_other {new : Segment} (h : new.kind.isList = false)
    (before : Option Segment) (child : Segment) : entryStats new before child = 0 := by
  simp only [entryStats, h, Bool.false_eq_true, false_and, if_false]
  rfl

/-- **A place below a child** adds to the counters what it adds to those of the child, and
the child's own place adds whether it is introduced. -/
theorem statsAt_cons {new child : Segment} {before : Option Segment}
    (hc : new.liveChild? child.id = some child) (ids : List String) :
    statsAt new before (child.id :: ids)
      = (if ids = [] then entryStats new before child else 0)
        + statsAt child (inherited new before child.id) ids := by
  have hshape : new.shapeAt? (child.id :: ids) = child.shapeAt? ids := by
    rw [shapeAt?_cons, hc, Option.bind_some]
  have hmatched : MatchedIn new before (child.id :: ids)
      ↔ MatchedIn child (inherited new before child.id) ids := matchedIn_cons_iff hc
  have hdropped : (statsAt new before (child.id :: ids)).dropped
      = (statsAt child (inherited new before child.id) ids).dropped := by
    simp only [statsAt, hshape, hmatched]
    split
    · next h => exact droppedAt_cons hc (hmatched.2 h.2)
    · rfl
  cases ids with
  | nil =>
      -- taken alone the child is a root, so only the tree above says that it is in a list
      have hroot : ¬ child.InList [] := fun h => h.1 rfl
      rw [if_pos rfl]
      ext
      · simp only [MergeStats.preserved_add, entryStats, zero_add, statsAt, hshape, hmatched]
      · simp only [MergeStats.defaulted_add, entryStats, zero_add, statsAt, hshape, hmatched]
      · rw [MergeStats.dropped_add, hdropped, entryStats, zero_add]
      · simp only [MergeStats.introduced_add, entryStats, statsAt, inList_cons hc, if_true,
          hmatched, hroot, false_and, if_false, add_zero]
  | cons next ids =>
      rw [if_neg (List.cons_ne_nil next ids), zero_add]
      ext
      · simp only [statsAt, hshape, hmatched]
      · simp only [statsAt, hshape, hmatched]
      · exact hdropped
      · simp only [statsAt, inList_cons hc, reduceCtorEq, if_false, hmatched]

/-! ## The counters of a segment -/

/-- The former ids counted as dropped, as ids. -/
theorem dropped_droppedStats (children former : Children) :
    (droppedStats children former).dropped
      = (Children.ids former).countP fun id => id ∉ Children.ids children := by
  have hids : Children.ids former = former.map Segment.id := rfl
  rw [hids, List.countP_map]
  apply List.countP_congr
  intro gone _
  rw [Function.comp_apply, Bool.not_eq_true', decide_eq_true_iff, Bool.eq_false_iff, Ne,
    Children.contains_iff]

/-- **What a list region drops** is told by the ids that both trees emit there. -/
theorem droppedStats_eq {new : Segment} (hnew : new.WellFormed) (hlist : new.kind.isList = true)
    {before : Option Segment} (hb : ∀ old, before = some old → old.WellFormed) :
    droppedStats new.children (formerList (before.bind asRegion?)) = statsAt new before [] := by
  have hshape : new.shapeAt? [] = some .region :=
    congrArg some (isList_iff_shape.1 hlist)
  have hroot : ¬ new.InList [] := fun h => h.1 rfl
  have hmem : ∀ id, id ∈ Children.ids new.children ↔ id ∈ new.childOrder := by
    intro id
    rw [childOrder_eq hnew]
    exact (new.emittedChildren_perm.map Segment.id).mem_iff.symm
  have hdropped : (droppedStats new.children (formerList (before.bind asRegion?))).dropped
      = if MatchedIn new before [] then droppedAt new before [] else 0 := by
    rw [dropped_droppedStats]
    simp only [hmem]
    split
    · next hm =>
        obtain ⟨old, rfl, hsame⟩ := hm
        have hold : old.kind.isList = true := (sameShape_of_isList hlist old.kind).symm.trans hsame
        rw [ids_formerList (hb old rfl) hold]
        rfl
    · next hm =>
        -- a former segment that is not continued is no list region
        have hnone : formerList (before.bind asRegion?) = [] := by
          apply formerList_eq_nil
          intro former hf
          rw [← sameShape_of_isList hlist, Bool.eq_false_iff]
          intro hsame
          exact hm ⟨former, hf, hsame⟩
        rw [hnone]
        rfl
  ext
  · simp only [droppedStats, statsAt, hshape, Option.some.injEq, reduceCtorEq, false_and, if_false]
  · simp only [droppedStats, statsAt, hshape, Option.some.injEq, reduceCtorEq, false_and, if_false]
  · simp only [hdropped, statsAt, hshape, true_and]
  · simp only [droppedStats, statsAt, hroot, false_and, if_false]

/-- Merged or not, a list region adds the same counters. -/
theorem mergeStats_of_list {new : Segment} (hlist : new.kind.isList = true)
    (before : Option Segment) :
    mergeStats new before
      = listStats new.children (formerList (before.bind asRegion?))
        + mergeStatsEach new.children (formerList (before.bind asRegion?)) := by
  cases new with
  | region | synchronized => rfl
  | literal | editable | composite => cases hlist

/-- **The counters of a segment** are what its own place adds and, for each of its children,
what that adds as a child and the counters of its merge. -/
theorem mergeStats_step {new : Segment} (hnew : new.WellFormed) {before : Option Segment}
    (hb : ∀ old, before = some old → old.WellFormed) :
    mergeStats new before
      = statsAt new before [] + (new.children.map fun child =>
          entryStats new before child
            + mergeStats child (inherited new before child.id)).sum := by
  cases hlist : new.kind.isList with
  | true =>
      -- what the children introduce is added by their own places, what is dropped by the region's
      have hentry : new.children.map (entryStats new before)
          = new.children.map fun child =>
              introducedStats child (inherited new before child.id) :=
        List.map_congr_left fun child _ => entryStats_of_list hlist before child
      rw [mergeStats_of_list hlist, listStats_eq, mergeStatsEach_eq_sum,
        droppedStats_eq hnew hlist hb, List.sum_map_add, hentry]
      simp only [get?_formerList hlist]
      ac_rfl
  | false =>
      simp only [entryStats_of_other hlist, zero_add]
      cases new with
      | literal => rfl
      | editable id content =>
          cases before with
          | none => rfl
          | some former => cases former <;> rfl
      | composite id children =>
          have hother : statsAt (.composite id children) before [] = 0 := rfl
          simp only [hother, zero_add, mergeStats, mergeStatsEach_eq_sum,
            get?_formerChildren id children, Segment.children]
      | region | synchronized => cases hlist

/-- What the root adds, and no place below it. -/
theorem sum_root (tree : Segment) (stats : MergeStats) :
    (tree.places.map fun ids => if ids = [] then stats else 0).sum = stats := by
  have hbelow : ∀ other ∈ (tree.children.flatMap fun child =>
      child.places.map (child.id :: ·)).map (fun ids => if ids = [] then stats else 0),
      other = 0 := by
    intro other hm
    obtain ⟨ids, hids, rfl⟩ := List.mem_map.1 hm
    obtain ⟨child, -, hchild⟩ := List.mem_flatMap.1 hids
    obtain ⟨below, -, rfl⟩ := List.mem_map.1 hchild
    exact if_neg (List.cons_ne_nil child.id below)
  rw [places_eq, List.map_cons, List.sum_cons, if_pos rfl, List.sum_eq_zero hbelow, add_zero]

/-- **The counters of a merge** are what its places add. -/
theorem mergeStats_eq_sum {new : Segment} (hnew : new.WellFormed) {before : Option Segment}
    (hb : ∀ old, before = some old → old.WellFormed) :
    mergeStats new before = (new.places.map (statsAt new before)).sum := by
  induction new using children_induction generalizing before with
  | step new ih =>
      -- the places below a child add its entry once and otherwise what they add to its merge
      have hchild : ∀ child ∈ new.children,
          entryStats new before child + mergeStats child (inherited new before child.id)
            = ((child.places.map (child.id :: ·)).map (statsAt new before)).sum := by
        intro child hm
        have hc : new.liveChild? child.id = some child :=
          hnew.liveChild?_eq_some_iff.2 ⟨hm, rfl⟩
        have hinherited : ∀ old, inherited new before child.id = some old → old.WellFormed := by
          intro old hold
          obtain ⟨former, rfl, -, hf⟩ := inherited_eq_some_iff.1 hold
          exact (hb former rfl).liveChild hf
        rw [ih child hm (hnew.each hm) hinherited, List.map_map]
        simp only [Function.comp_def, statsAt_cons hc, List.sum_map_add, sum_root]
      rw [mergeStats_step hnew hb, List.map_congr_left hchild, places_eq, List.map_cons,
        List.sum_cons, List.map_flatMap, List.flatMap_def, List.sum_flatten, List.map_map]
      rfl

/-! ## Each counter -/

section Counters

variable {new : Segment} (hnew : new.WellFormed) {before : Option Segment}
  (hb : ∀ old, before = some old → old.WellFormed)

include hnew hb

/-- A counter to which a place adds something only under a condition adds it up over the
places that meet the condition. -/
theorem counter_eq_sum (counter : MergeStats →+ Nat) {cond : List String → Prop}
    [DecidablePred cond] {added : List String → Nat}
    (h : ∀ ids, counter (statsAt new before ids) = if cond ids then added ids else 0) :
    counter (mergeStats new before) = ((new.places.filter fun ids => cond ids).map added).sum := by
  have hnone : ((new.places.filter fun ids => ¬ cond ids).map fun _ => 0).sum = 0 := by simp
  rw [mergeStats_eq_sum hnew hb, map_list_sum, List.map_map]
  simp only [Function.comp_def, h]
  rw [List.sum_map_ite, hnone, add_zero]

/-- So a counter to which these places add one each counts them. -/
theorem counter_eq_countP (counter : MergeStats →+ Nat) {cond : List String → Prop}
    [DecidablePred cond]
    (h : ∀ ids, counter (statsAt new before ids) = if cond ids then 1 else 0) :
    counter (mergeStats new before) = new.places.countP fun ids => cond ids := by
  rw [counter_eq_sum hnew hb counter h, List.map_const', List.sum_replicate_nat, mul_one,
    List.countP_eq_length_filter]

end Counters

/-- **Every live place of the new tree is counted for what became of it.** The merge that
counts on the way adds to the counters there were: the editable leaves whose place
continues a former one as preserved and all others as defaulted, so that each of them is
counted once; the children of list regions, at any depth, whose own place does not continue
a former one as introduced; and for every list region whose place continues a former one
the ids emitted there that the new region does not have, as dropped. -/
theorem counters_merge {new : Segment} (hnew : new.WellFormed) {before : Option Segment}
    (hb : ∀ old, before = some old → old.WellFormed) :
    (∀ stats, mergeCounting new before stats
      = (merge new before, stats + mergeStats new before)) ∧
    (∀ ids, ids ∈ new.places ↔ (new.live? ids).isSome) ∧ new.places.Nodup ∧
    (mergeStats new before).preserved
      = new.places.countP (fun ids =>
          new.shapeAt? ids = some .editable ∧ MatchedIn new before ids) ∧
    (mergeStats new before).defaulted
      = new.places.countP (fun ids =>
          new.shapeAt? ids = some .editable ∧ ¬ MatchedIn new before ids) ∧
    (mergeStats new before).preserved + (mergeStats new before).defaulted
      = new.places.countP (fun ids => new.shapeAt? ids = some .editable) ∧
    (mergeStats new before).introduced
      = new.places.countP (fun ids => new.InList ids ∧ ¬ MatchedIn new before ids) ∧
    (mergeStats new before).dropped
      = ((new.places.filter fun ids =>
          new.shapeAt? ids = some .region ∧ MatchedIn new before ids).map
            (droppedAt new before)).sum := by
  let preserved : MergeStats →+ Nat := ⟨⟨MergeStats.preserved, rfl⟩, MergeStats.preserved_add⟩
  let defaulted : MergeStats →+ Nat := ⟨⟨MergeStats.defaulted, rfl⟩, MergeStats.defaulted_add⟩
  let dropped : MergeStats →+ Nat := ⟨⟨MergeStats.dropped, rfl⟩, MergeStats.dropped_add⟩
  let introduced : MergeStats →+ Nat := ⟨⟨MergeStats.introduced, rfl⟩, MergeStats.introduced_add⟩
  refine ⟨mergeCounting_eq new before, fun _ => mem_places hnew, nodup_places hnew,
    counter_eq_countP hnew hb preserved fun _ => rfl,
    counter_eq_countP hnew hb defaulted fun _ => rfl,
    counter_eq_countP hnew hb (preserved + defaulted) ?_,
    counter_eq_countP hnew hb introduced fun _ => rfl,
    counter_eq_sum hnew hb dropped fun _ => rfl⟩
  -- an editable leaf is counted once, whether its place continues one or not
  intro ids
  change (if _ then 1 else 0) + (if _ then 1 else 0) = _
  by_cases hm : MatchedIn new before ids <;> simp [hm]

/-- Of the two rows held one body is carried over and one keeps its default; row `c` is
dropped and row `b` is introduced. -/
theorem counters_merge_rows :
    WellFormed Sample.twoRows ∧ (∀ old, some Sample.mergedRows = some old → WellFormed old) ∧
    mergeCounting Sample.twoRows (some Sample.mergedRows) ⟨0, 0, 4, 0⟩
      = (merge Sample.twoRows (some Sample.mergedRows), ⟨1, 1, 5, 1⟩) := by
  have hnew : WellFormed Sample.twoRows := by decide
  have hold : WellFormed Sample.mergedRows := by decide
  have hb := hold.of_some_eq
  obtain ⟨hcounting, -, -, hpreserved, hdefaulted, -, hintroduced, hdropped⟩ :=
    counters_merge hnew hb
  have hstats : mergeStats Sample.twoRows (some Sample.mergedRows) = ⟨1, 1, 1, 1⟩ := by
    ext
    · exact hpreserved.trans (by decide)
    · exact hdefaulted.trans (by decide)
    · exact hdropped.trans (by decide)
    · exact hintroduced.trans (by decide)
  refine ⟨hnew, hb, ?_⟩
  rw [hcounting, hstats]
  rfl

end Regeneration.Segment
