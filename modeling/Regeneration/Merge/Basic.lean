import Regeneration.Merge.Order
import Regeneration.Merge.Stats

/-!
# Merging a generation with the tree before it

The new tree decides shape and membership. The former tree gives the content of
editable leaves and, to regions that preserve it, the order. Merging is total:
former content that is missing or of another shape leaves the generated default.
Children are paired by id, level by level, and a list region's former children
are those it emitted.

`merge` computes the tree and `mergeStats` the counters, by the same recursion.

Main statement: `id_merge`, a merged tree keeps its id.
-/

set_option autoImplicit false

namespace Regeneration.Segment

/-- Whether a segment can take over from a former one: equal kinds, or two list
regions, merged or not. -/
def sameShape (now before : SegmentKind) : Bool :=
  now == before || (now.isList && before.isList)

/-- Whether a child continues a former one. -/
def continues (child : Segment) (before : Option Segment) : Bool :=
  match before with
  | some before => sameShape child.kind before.kind
  | none => false

/-- The former children of a composite; none if the former segment was something
else. -/
def formerChildren (before : Option Segment) : Children :=
  match before with
  | some (.composite _ children) => children
  | _ => []

/-- The former children of a list region in the order they were emitted. -/
def formerList (former : Option (Region Segment)) : Children :=
  match former with
  | some list => list.children
  | none => []

/-- The synchronized segment of a merged region and its former self. -/
def conclude (merged : Region Segment) (former : Option (Region Segment)) : Segment :=
  synchronize merged former
    (merged.policy.emission (Children.ids merged.children) (Children.ids (formerList former)))

mutual
/-- The new tree with what the former tree at the same place contributes. -/
def merge : Segment → Option Segment → Segment
  | .literal id content, _ => .literal id content
  | .editable id content, before =>
    match before with
    | some (.editable _ former) => .editable id former
    | _ => .editable id content
  | .composite id children, before =>
    .composite id (Keyed.keepFirst Segment.id (mergeEach children (formerChildren before)))
  | .region ⟨id, policy, children⟩, before =>
    let former := before.bind asRegion?
    conclude ⟨id, policy, Keyed.keepFirst Segment.id (mergeEach children (formerList former))⟩
      former
  | .synchronized ⟨id, policy, children⟩ _ order, before =>
    let former := before.bind asRegion?
    conclude
      ⟨id, policy, Keyed.keepFirst Segment.id
        (Children.arrange order (mergeEach children (formerList former)))⟩
      former
termination_by structural tree => tree

/-- Each tree merged with the former child of its id. -/
def mergeEach : List Segment → Children → List Segment
  | [], _ => []
  | child :: rest, former => merge child (former.get? child.id) :: mergeEach rest former
termination_by structural trees => trees
end

/-- What a list region itself adds to the counters: children without a former
place, and former children that are gone. -/
def listStats (children former : Children) : MergeStats :=
  { preserved := 0
    defaulted := 0
    dropped := former.countP fun gone => !children.contains gone.id
    introduced := children.countP fun child => !continues child (former.get? child.id) }

mutual
/-- The counters of a merge. -/
def mergeStats : Segment → Option Segment → MergeStats
  | .literal .., _ => 0
  | .editable .., before =>
    match before with
    | some (.editable ..) => ⟨1, 0, 0, 0⟩
    | _ => ⟨0, 1, 0, 0⟩
  | .composite _ children, before => mergeStatsEach children (formerChildren before)
  | .region ⟨_, _, children⟩, before =>
    let former := formerList (before.bind asRegion?)
    listStats children former + mergeStatsEach children former
  | .synchronized ⟨_, _, children⟩ _ _, before =>
    let former := formerList (before.bind asRegion?)
    listStats children former + mergeStatsEach children former
termination_by structural tree => tree

/-- The counters of merging each tree with the former child of its id. -/
def mergeStatsEach : List Segment → Children → MergeStats
  | [], _ => 0
  | child :: rest, former =>
    mergeStats child (former.get? child.id) + mergeStatsEach rest former
termination_by structural trees => trees
end

theorem mergeEach_eq_map (trees : List Segment) (former : Children) :
    mergeEach trees former = trees.map fun tree => merge tree (former.get? tree.id) := by
  induction trees with
  | nil => rfl
  | cons tree rest ih => rw [mergeEach, ih, List.map_cons]

/-- Merging keeps the id. -/
@[simp] theorem id_merge (tree : Segment) (before : Option Segment) :
    (merge tree before).id = tree.id := by
  cases tree with
  | literal => rfl
  | editable id content =>
      cases before with
      | none => rfl
      | some former => cases former <;> rfl
  | composite => rfl
  | region => rfl
  | synchronized => rfl

end Regeneration.Segment
