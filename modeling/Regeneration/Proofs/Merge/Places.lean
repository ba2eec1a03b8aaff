import Regeneration.Merge.Matched
import Regeneration.Proofs.Segment.Live

/-!
# Merging place by place

A merge goes down both trees at once. At a live place of the new tree it merges
the new segment there with what is left of the former tree there: the former
segment of the same place, as long as every container above had a former self of
its shape, and nothing otherwise.

Main statements: `live?_merge` (what a merge is at a place) and `matchedIn_iff`
(a place continues a former one exactly if something of its shape is left).
-/

set_option autoImplicit false

namespace Regeneration.Segment

/-! ## Shapes -/

theorem sameShape_editable {tree : Segment} (h : sameShape .editable tree.kind = true) :
    ∃ id content, tree = .editable id content := by
  cases tree with
  | editable id content => exact ⟨id, content, rfl⟩
  | literal | composite | region | synchronized => cases h

/-- An editable leaf takes nothing over from a segment of another shape. -/
theorem merge_editable_of_other {id content : String} {before : Option Segment}
    (h : ∀ former, before = some former → sameShape .editable former.kind = false) :
    merge (.editable id content) before = .editable id content := by
  cases before with
  | none => rfl
  | some former =>
      cases former with
      | editable _ _ => cases h _ rfl
      | literal | composite | region | synchronized => rfl

/-! ## One step down -/

/-- What is left of the former tree for the children of a segment: its live child
of the same id, if the segment had a former self of its shape. -/
def inherited (new : Segment) (before : Option Segment) (id : String) : Option Segment :=
  before.bind fun old => if sameShape new.kind old.kind then old.liveChild? id else none

theorem inherited_eq_some_iff {new former : Segment} {before : Option Segment} {id : String} :
    inherited new before id = some former ↔
      ∃ old, before = some old ∧ sameShape new.kind old.kind = true ∧
        old.liveChild? id = some former := by
  simp only [inherited, Option.bind_eq_some_iff, Option.ite_none_right_eq_some]

theorem get?_formerChildren (id : String) (children : List Segment) (before : Option Segment)
    (child : String) :
    (formerChildren before).get? child = inherited (.composite id children) before child := by
  cases before with
  | none => rfl
  | some old => cases old <;> rfl

theorem get?_formerList {new : Segment} (hnew : new.kind.isList = true) (before : Option Segment)
    (child : String) :
    Children.get? (formerList (before.bind asRegion?)) child = inherited new before child := by
  -- the shape of a list region is that of the list regions
  have hshape : ∀ kind : SegmentKind, sameShape new.kind kind = kind.isList := by
    intro kind
    cases new with
    | region => cases kind <;> rfl
    | synchronized => cases kind <;> rfl
    | literal | editable | composite => cases hnew
  cases before with
  | none => rfl
  | some old =>
      simp only [inherited, Option.bind_some, hshape]
      cases old with
      | synchronized merged _ order => exact Keyed.find?_arrange order child merged.children
      | literal | editable | composite | region => rfl

theorem find?_mergeEach (children : List Segment) (former : Children) (id : String) :
    Keyed.find? Segment.id id (mergeEach children former)
      = (Keyed.find? Segment.id id children).map fun child => merge child (former.get? id) := by
  have hid : ∀ tree : Segment, (merge tree (former.get? tree.id)).id = tree.id := by
    intro tree
    exact id_merge tree _
  rw [mergeEach_eq_map, Keyed.find?_map hid]
  cases h : Keyed.find? Segment.id id children with
  | none => rfl
  | some child => rw [Option.map_some, Option.map_some, Keyed.key_of_find? h]

/-- **A child of a merge** is the new child merged with what is left of the former
tree for it. -/
theorem liveChild?_merge (new : Segment) (before : Option Segment) (id : String) :
    (merge new before).liveChild? id
      = (new.liveChild? id).map fun child => merge child (inherited new before id) := by
  cases new with
  | literal => rfl
  | editable name content =>
      cases before with
      | none => rfl
      | some old => cases old <;> rfl
  | composite name children =>
      rw [← get?_formerChildren name children before id]
      exact (Keyed.find?_keepFirst id _).trans (find?_mergeEach children _ id)
  | region list =>
      rw [← get?_formerList rfl before id]
      exact (Keyed.find?_keepFirst id _).trans (find?_mergeEach list.children _ id)
  | synchronized merged past order =>
      -- the children are merged as stored and then brought into emitted order
      rw [← get?_formerList rfl before id]
      exact (Keyed.find?_keepFirst id _).trans
        ((Keyed.find?_arrange order id _).trans (find?_mergeEach merged.children _ id))

/-! ## All the way down -/

/-- What is left of the former tree at a live place of the new one. -/
def inheritedAt (new : Segment) (before : Option Segment) : List String → Option Segment
  | [] => before
  | id :: ids =>
    (new.liveChild? id).bind fun child => inheritedAt child (inherited new before id) ids

/-- **A merge at a place** is the new segment there merged with what is left of
the former tree there. -/
theorem live?_merge (new : Segment) (before : Option Segment) (ids : List String) :
    (merge new before).live? ids
      = (new.live? ids).map fun node => merge node (inheritedAt new before ids) := by
  induction ids generalizing new before with
  | nil => rfl
  | cons id ids ih =>
      rw [live?, live?, liveChild?_merge, inheritedAt]
      cases hc : new.liveChild? id with
      | none => rfl
      | some child => exact ih child _

/-- Whether a live place of the new tree continues one of the former tree, if
there is one. -/
def MatchedIn (new : Segment) (before : Option Segment) (ids : List String) : Prop :=
  ∃ old, before = some old ∧ Matched new old ids

theorem matchedIn_some_iff {new old : Segment} {ids : List String} :
    MatchedIn new (some old) ids ↔ Matched new old ids := by
  constructor
  · rintro ⟨_, hold, hm⟩
    cases hold
    exact hm
  · intro hm
    exact ⟨old, rfl, hm⟩

theorem matchedIn_cons_iff {new child : Segment} {before : Option Segment} {id : String}
    {ids : List String} (hc : new.liveChild? id = some child) :
    MatchedIn new before (id :: ids) ↔ MatchedIn child (inherited new before id) ids := by
  constructor
  · rintro ⟨old, rfl, hshape, _, former, hc', hf, hrest⟩
    cases hc.symm.trans hc'
    exact ⟨former, inherited_eq_some_iff.2 ⟨old, rfl, hshape, hf⟩, hrest⟩
  · rintro ⟨former, hf, hrest⟩
    obtain ⟨old, rfl, hshape, hf⟩ := inherited_eq_some_iff.1 hf
    exact ⟨old, rfl, hshape, child, former, hc, hf, hrest⟩

/-- A place continues a former one exactly if what is left of the former tree
there has its shape. -/
theorem matchedIn_iff {new node : Segment} {ids : List String} (h : new.live? ids = some node)
    (before : Option Segment) :
    MatchedIn new before ids ↔
      ∃ former, inheritedAt new before ids = some former ∧
        sameShape node.kind former.kind = true := by
  induction ids generalizing new before with
  | nil =>
      cases h
      exact Iff.rfl
  | cons id ids ih =>
      obtain ⟨child, hc, hrest⟩ := Option.bind_eq_some_iff.1 h
      rw [matchedIn_cons_iff hc, ih hrest, inheritedAt, hc, Option.bind_some]

/-- Nothing is left below a place where nothing is left. -/
theorem inheritedAt_none (new : Segment) (id : String) (ids : List String) :
    inheritedAt new none (id :: ids) = none := by
  induction ids generalizing new id with
  | nil =>
      rw [inheritedAt, Option.bind_eq_none_iff]
      intro child _
      rfl
  | cons next ids ih =>
      rw [inheritedAt, Option.bind_eq_none_iff]
      intro child _
      exact ih child next

/-- What is left of the former tree at a place is its live segment there. -/
theorem live?_of_inheritedAt {new old former : Segment} {ids : List String}
    (h : inheritedAt new (some old) ids = some former) : old.live? ids = some former := by
  induction ids generalizing new old with
  | nil => exact h
  | cons id ids ih =>
      obtain ⟨child, _, hrest⟩ := Option.bind_eq_some_iff.1 h
      cases hi : inherited new (some old) id with
      | none =>
          -- nothing is left here, so nothing could be left below
          rw [hi] at hrest
          cases ids with
          | nil => cases hrest
          | cons next ids => cases (inheritedAt_none child next ids).symm.trans hrest
      | some kept =>
          rw [hi] at hrest
          obtain ⟨_, he, _, hf⟩ := inherited_eq_some_iff.1 hi
          cases he
          rw [live?, hf, Option.bind_some]
          exact ih hrest

end Regeneration.Segment
