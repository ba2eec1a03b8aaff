import Mathlib.Algebra.BigOperators.Group.List.Basic
import Regeneration.Proofs.Merge.Recorded

/-!
# Counting on the way

The counters of a merge are kept while it goes: one running value is handed from child to
child, a leaf adds to it when it is merged, a child of a list region before it is merged,
and a list region what it dropped when all its children are merged. Read off the trees
alone, without the running value, the counters are a sum over the segments of the new tree.
Both give the same, from any counters to begin with.

Main statement: `mergeCounting_eq`.
-/

set_option autoImplicit false

namespace Regeneration

/-- Counters add up in any order and grouping. -/
instance : AddCommMonoid MergeStats where
  add_assoc := MergeStats.add_assoc
  add_comm := MergeStats.add_comm
  zero_add := MergeStats.zero_add
  add_zero := MergeStats.add_zero
  nsmul := nsmulRec

attribute [ext] MergeStats

namespace MergeStats

@[simp] theorem preserved_add (a b : MergeStats) :
    (a + b).preserved = a.preserved + b.preserved := rfl

@[simp] theorem defaulted_add (a b : MergeStats) :
    (a + b).defaulted = a.defaulted + b.defaulted := rfl

@[simp] theorem dropped_add (a b : MergeStats) : (a + b).dropped = a.dropped + b.dropped := rfl

@[simp] theorem introduced_add (a b : MergeStats) :
    (a + b).introduced = a.introduced + b.introduced := rfl

end MergeStats

namespace Segment

/-- What a child of a list region adds before it is merged: one introduced child, unless
it continues a former one. -/
def introducedStats (child : Segment) (before : Option Segment) : MergeStats :=
  if continues child before then 0 else ⟨0, 0, 0, 1⟩

/-- What a list region adds after its children are merged: the former ids that none of
them has. -/
def droppedStats (children former : Children) : MergeStats :=
  ⟨0, 0, former.countP fun gone => !children.contains gone.id, 0⟩

/-- A step of a merge: given the counters so far, the merged child and the counters from
there on. -/
abbrev CountingStep := MergeStats → Segment × MergeStats

/-- The steps of the children one after another, with the counters handed on. -/
def inTurn : List (String × CountingStep) → MergeStats → List Segment × MergeStats
  | [], stats => ([], stats)
  | (_, step) :: rest, stats =>
    let (child, stats) := step stats
    let (children, stats) := inTurn rest stats
    (child :: children, stats)

/-- Merges the children of a list region in turn, concludes the region and counts what it
dropped. -/
def concludeSteps (id : String) (policy : OrderPolicy) (former : Option (Region Segment))
    (steps : List (String × CountingStep)) : CountingStep := fun stats =>
  let (merged, stats) := inTurn steps stats
  let children := Keyed.keepFirst Segment.id merged
  (conclude ⟨id, policy, children⟩ former, stats + droppedStats children (formerList former))

mutual
/-- A merge that counts on the way. -/
def mergeCounting : Segment → Option Segment → CountingStep
  | .literal id content, _, stats => (.literal id content, stats)
  | .editable id content, before, stats =>
    match before with
    | some (.editable _ former) => (.editable id former, stats + ⟨1, 0, 0, 0⟩)
    | _ => (.editable id content, stats + ⟨0, 1, 0, 0⟩)
  | .composite id children, before, stats =>
    let (merged, stats) := inTurn (mergeSteps false children (formerChildren before)) stats
    (.composite id (Keyed.keepFirst Segment.id merged), stats)
  | .region ⟨id, policy, children⟩, before, stats =>
    let former := before.bind asRegion?
    concludeSteps id policy former (mergeSteps true children (formerList former)) stats
  | .synchronized ⟨id, policy, children⟩ _ order, before, stats =>
    let former := before.bind asRegion?
    concludeSteps id policy former
      (Keyed.arrange Prod.fst order (mergeSteps true children (formerList former))) stats
termination_by structural tree => tree

/-- The step of each child, with the child's id. In a list region a child is counted as
introduced before it is merged. -/
def mergeSteps (list : Bool) : List Segment → Children → List (String × CountingStep)
  | [], _ => []
  | child :: rest, former =>
    let before := former.get? child.id
    let counted : CountingStep := fun stats => mergeCounting child before
      (stats + if list then introducedStats child before else 0)
    (child.id, counted) :: mergeSteps list rest former
termination_by structural trees => trees
end

/-! ## Sums over the children -/

theorem mergeStatsEach_eq_sum (trees : List Segment) (former : Children) :
    mergeStatsEach trees former
      = (trees.map fun tree => mergeStats tree (former.get? tree.id)).sum := by
  induction trees with
  | nil => rfl
  | cons tree rest ih => rw [mergeStatsEach, ih, List.map_cons, List.sum_cons]

/-- What a list region adds by itself is what its children add before they are merged and
what it adds after. -/
theorem listStats_eq (children former : Children) :
    listStats children former
      = (children.map fun child => introducedStats child (former.get? child.id)).sum
        + droppedStats children former := by
  have hintroduced : (children.map fun child => introducedStats child (former.get? child.id)).sum
      = ⟨0, 0, 0, children.countP fun child => !continues child (former.get? child.id)⟩ := by
    induction children with
    | nil => rfl
    | cons child rest ih =>
        rw [List.map_cons, List.sum_cons, ih, List.countP_cons, introducedStats, Nat.add_comm]
        cases continues child (former.get? child.id) <;> rfl
  rw [hintroduced]
  change _ = MergeStats.add _ _
  simp [listStats, droppedStats, MergeStats.add]

/-- Steps that each add something to the counters add the sum of it. -/
theorem inTurn_map (tree : Segment → Segment) (added : Segment → MergeStats)
    (children : List Segment) (stats : MergeStats) :
    inTurn (children.map fun child => (child.id, fun stats => (tree child, stats + added child)))
        stats
      = (children.map tree, stats + (children.map added).sum) := by
  -- each child starts from the counters its earlier siblings left
  induction children generalizing stats with
  | nil => simp [inTurn]
  | cons child rest ih =>
      rw [List.map_cons, inTurn]
      simp only [ih, List.map_cons, List.sum_cons, add_assoc]

/-! ## One pass -/

/-- What a child adds to the counters of its container. -/
def childStats (list : Bool) (former : Children) (child : Segment) : MergeStats :=
  (if list then introducedStats child (former.get? child.id) else 0)
    + mergeStats child (former.get? child.id)

section Children

variable {children : List Segment}
  (ih : ∀ child ∈ children, ∀ before stats,
    mergeCounting child before stats = (merge child before, stats + mergeStats child before))

include ih

theorem mergeSteps_eq_map (list : Bool) (former : Children) :
    mergeSteps list children former = children.map fun child =>
      (child.id, fun stats =>
        (merge child (former.get? child.id), stats + childStats list former child)) := by
  induction children with
  | nil => rfl
  | cons child rest ihRest =>
      have hrest := ihRest fun other hm => ih other (List.mem_cons_of_mem child hm)
      rw [mergeSteps, hrest, List.map_cons]
      simp only [ih child List.mem_cons_self, childStats, add_assoc]

theorem inTurn_mergeSteps (list : Bool) (order : List String) (former : Children)
    (stats : MergeStats) :
    inTurn (Keyed.arrange Prod.fst order (mergeSteps list children former)) stats
      = (Children.arrange order (mergeEach children former),
          stats + (children.map (childStats list former)).sum) := by
  have hkey : ∀ child : Segment, Prod.fst (child.id, fun stats : MergeStats =>
      (merge child (former.get? child.id), stats + childStats list former child)) = child.id :=
    fun _ => rfl
  have hid : ∀ child : Segment, (merge child (former.get? child.id)).id = child.id :=
    fun child => id_merge child _
  -- arranged steps are the steps of the arranged children, whose sum is the same
  have hperm : (Keyed.arrange Segment.id order children).Perm children :=
    Keyed.arrange_perm order children
  rw [mergeSteps_eq_map ih, Keyed.arrange_map hkey, inTurn_map,
    (hperm.map (childStats list former)).sum_eq, mergeEach_eq_map, Children.arrange,
    Keyed.arrange_map hid]

end Children

/-- What is dropped is told by the ids of the merged children, which are those of the new
ones. -/
theorem droppedStats_congr {children others : Children} (former : Children)
    (h : ∀ id, id ∈ children.ids ↔ id ∈ others.ids) :
    droppedStats children former = droppedStats others former := by
  have hcontains : ∀ id, children.contains id = others.contains id := by
    intro id
    rw [Bool.eq_iff_iff, Children.contains_iff, Children.contains_iff]
    exact h id
  simp only [droppedStats, hcontains]

theorem mem_ids_keepFirst (order : List String) (children former : Children) (id : String) :
    id ∈ Children.ids (Keyed.keepFirst Segment.id
        (Children.arrange order (mergeEach children former))) ↔ id ∈ children.ids := by
  have hmerged := map_id_mergeEach children former
  rw [← hmerged, Children.ids, Children.ids, ← Keyed.find?_isSome_iff, ← Keyed.find?_isSome_iff,
    Keyed.find?_keepFirst, Children.arrange, Keyed.find?_arrange]

theorem concludeSteps_mergeSteps {children : List Segment}
    (ih : ∀ child ∈ children, ∀ before stats,
      mergeCounting child before stats = (merge child before, stats + mergeStats child before))
    (id : String) (policy : OrderPolicy) (order : List String) (former : Option (Region Segment))
    (stats : MergeStats) :
    concludeSteps id policy former
        (Keyed.arrange Prod.fst order (mergeSteps true children (formerList former))) stats
      = (conclude ⟨id, policy, Keyed.keepFirst Segment.id
            (Children.arrange order (mergeEach children (formerList former)))⟩ former,
          stats + (listStats children (formerList former)
            + mergeStatsEach children (formerList former))) := by
  have hsum : (children.map (childStats true (formerList former))).sum
      = (children.map fun child =>
          introducedStats child (Children.get? (formerList former) child.id)).sum
        + mergeStatsEach children (formerList former) := by
    rw [mergeStatsEach_eq_sum, ← List.sum_map_add]
    rfl
  -- what is dropped is counted against the merged children, which have the ids of the new ones
  have hdropped := droppedStats_congr (formerList former)
    (mem_ids_keepFirst order children (formerList former))
  rw [concludeSteps, inTurn_mergeSteps ih]
  simp only [hdropped, hsum, listStats_eq]
  congr 1
  ac_rfl

/-- **Counting on the way adds the counters of the merge** to those there were, and
the merge is the same. -/
theorem mergeCounting_eq (new : Segment) (before : Option Segment) (stats : MergeStats) :
    mergeCounting new before stats = (merge new before, stats + mergeStats new before) := by
  -- a child meets its own part of the former tree and the counters of its earlier siblings
  induction new using tree_induction generalizing before stats with
  | literal id content =>
      rw [mergeCounting, merge, mergeStats, add_zero]
  | editable id content =>
      cases before with
      | none => rfl
      | some former => cases former <;> rfl
  | composite id children ih =>
      have hsteps := inTurn_mergeSteps ih false [] (formerChildren before) stats
      have hsum : (children.map (childStats false (formerChildren before))).sum
          = mergeStatsEach children (formerChildren before) := by
        rw [mergeStatsEach_eq_sum]
        congr 2
        funext child
        exact zero_add _
      rw [Keyed.arrange, Children.arrange, Keyed.arrange, hsum] at hsteps
      rw [mergeCounting, hsteps, merge, mergeStats]
  | region list ih =>
      exact concludeSteps_mergeSteps ih list.id list.policy [] (before.bind asRegion?) stats
  | synchronized merged former order ih _ =>
      exact concludeSteps_mergeSteps ih merged.id merged.policy order (before.bind asRegion?) stats

end Segment

end Regeneration
