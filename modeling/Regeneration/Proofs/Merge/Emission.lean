import Regeneration.Proofs.Merge.Recorded
import Regeneration.Proofs.Record.Agreement
import Regeneration.Segment.Sample

/-!
# The order of merged lists

Every list region of a merge emits the children of the new region. They come as
generated, unless the new region preserves its order and its place continues a place
of the former tree: then the children that were emitted there come first, in the order
they had, and the others follow as generated. Of the former tree nothing counts but
which places it has, of which shapes, and in what order it emitted their children.

Main statement: `order_merge`. The step to one place is `childOrder_merge`;
`emittedAt_merge_of_matched` says what a merge emits at a place that continues one, and
`emittedAt_merge_of_not_matched` what it emits at any other.
-/

set_option autoImplicit false

namespace Regeneration.Segment

/-- The policy of a list region, merged or not. -/
def policy? : Segment → Option OrderPolicy
  | .region list => some list.policy
  | .synchronized merged _ _ => some merged.policy
  | _ => none

/-- The policy of the list region at a live place, if there is one. -/
def policyAt? (tree : Segment) (ids : List String) : Option OrderPolicy :=
  (tree.live? ids).bind policy?

/-- The ids of the children emitted at a live place, in the order emitted; none if
there is no such place. -/
def emittedAt (tree : Segment) (ids : List String) : List String :=
  ((tree.live? ids).map childOrder).getD []

theorem emittedAt_eq {tree place : Segment} {ids : List String} (h : tree.live? ids = some place) :
    tree.emittedAt ids = place.childOrder := by
  rw [emittedAt, h]
  rfl

theorem emittedAt_cons {tree child : Segment} {id : String} (hc : tree.liveChild? id = some child)
    (ids : List String) : tree.emittedAt (id :: ids) = child.emittedAt ids := by
  rw [emittedAt, live?, hc]
  rfl

theorem WellFormed.live {tree place : Segment} {ids : List String} (h : tree.WellFormed)
    (hl : tree.live? ids = some place) : place.WellFormed :=
  h.find? (find?_of_live? hl)

theorem nodup_childOrder {tree : Segment} (h : tree.WellFormed) : tree.childOrder.Nodup := by
  rw [childOrder_eq h]
  exact Record.distinct_emittedChildren h

theorem nodup_emittedAt {tree : Segment} (h : tree.WellFormed) (ids : List String) :
    (tree.emittedAt ids).Nodup := by
  rw [emittedAt]
  cases hl : tree.live? ids with
  | none => exact List.nodup_nil
  | some place => exact nodup_childOrder (h.live hl)

theorem isList_of_policy? {tree : Segment} {policy : OrderPolicy} (h : tree.policy? = some policy) :
    tree.kind.isList = true := by
  cases tree with
  | region | synchronized => rfl
  | literal | editable | composite => cases h

/-- Only list regions have the shape of a list region. -/
theorem sameShape_of_isList {now : SegmentKind} (h : now.isList = true) (before : SegmentKind) :
    sameShape now before = before.isList := by
  cases now with
  | region | synchronized => cases before <;> rfl
  | literal | editable | composite => cases h

/-! ## One segment -/

theorem policy?_merge (new : Segment) (before : Option Segment) :
    (merge new before).policy? = new.policy? := by
  cases new with
  | editable id content =>
      cases before with
      | none => rfl
      | some old => cases old <;> rfl
  | literal | composite | region | synchronized => rfl

/-- A former list region has the children it emitted. -/
theorem ids_formerList {former : Segment} (h : former.WellFormed)
    (hlist : former.kind.isList = true) :
    Children.ids (formerList ((some former).bind asRegion?)) = former.childOrder := by
  rw [childOrder_eq h]
  cases former with
  | region | synchronized => rfl
  | literal | editable | composite => cases hlist

/-- Without a former list region there are no former children. -/
theorem formerList_eq_nil {before : Option Segment}
    (h : ∀ former, before = some former → former.kind.isList = false) :
    formerList (before.bind asRegion?) = [] := by
  cases before with
  | none => rfl
  | some former =>
      cases former with
      | literal | editable | composite => rfl
      | region | synchronized => cases h _ rfl

theorem childOrder_merge_region {list : Region Segment} (hd : Children.Distinct list.children)
    (before : Option Segment) :
    (merge (.region list) before).childOrder
      = list.policy.emission (Children.ids list.children)
          (Children.ids (formerList (before.bind asRegion?))) := by
  have hperm := OrderPolicy.emission_perm list.policy
    (Children.ids (formerList (before.bind asRegion?))) hd
  rw [merge]
  simp only [keepFirst_mergeEach hd]
  rw [conclude, synchronize, childOrder, map_id_mergeEach]
  -- the order asked for lists every child once, so it is the order settled on
  exact settleOrder_of_perm hperm hd

/-- **The order of a merged list region** is its policy's, for the ids it would emit by
itself and the ids of the former region. -/
theorem childOrder_merge {new : Segment} (h : new.WellFormed) {policy : OrderPolicy}
    (hp : new.policy? = some policy) (before : Option Segment) :
    (merge new before).childOrder
      = policy.emission new.childOrder (Children.ids (formerList (before.bind asRegion?))) := by
  cases new with
  | literal | editable | composite => cases hp
  | region list =>
      cases hp
      exact childOrder_merge_region h.distinct before
  | synchronized merged past order =>
      cases hp
      -- flattened first, it is a plain region in emitted order
      rw [merge_flatten, childOrder_merge_region (wellFormed_flatten h).distinct, childOrder_eq h]
      rfl

/-- Other segments emit what the template gives them. -/
theorem childOrder_merge_of_other {new : Segment} (h : new.WellFormed) (hp : new.policy? = none)
    (before : Option Segment) : (merge new before).childOrder = new.childOrder := by
  cases new with
  | literal => rfl
  | editable id content =>
      cases before with
      | none => rfl
      | some old => cases old <;> rfl
  | composite id children =>
      have hd : Children.Distinct children := h.distinct
      rw [merge, keepFirst_mergeEach hd]
      exact map_id_mergeEach children _
  | region | synchronized => cases hp

/-! ## Every place -/

theorem policyAt?_merge (new : Segment) (before : Option Segment) (ids : List String) :
    (merge new before).policyAt? ids = new.policyAt? ids := by
  rw [policyAt?, policyAt?, live?_merge, Option.bind_map]
  congr 1
  funext place
  exact policy?_merge place _

section Places

variable {new : Segment} (hnew : new.WellFormed) {ids : List String}

include hnew

/-- A place that is no list region emits what the new tree emits there. -/
theorem emittedAt_merge_of_other (h : new.policyAt? ids = none) (before : Option Segment) :
    (merge new before).emittedAt ids = new.emittedAt ids := by
  rw [emittedAt, emittedAt, live?_merge]
  cases hl : new.live? ids with
  | none => rfl
  | some place =>
      rw [policyAt?, hl] at h
      exact childOrder_merge_of_other (hnew.live hl) h _

/-- Nor does a place count whose former self is missing or of another shape. -/
theorem emittedAt_merge_of_not_matched {before : Option Segment}
    (h : ¬ MatchedIn new before ids) :
    (merge new before).emittedAt ids = new.emittedAt ids := by
  cases hp : new.policyAt? ids with
  | none => exact emittedAt_merge_of_other hnew hp before
  | some policy =>
      obtain ⟨place, hl, hpolicy⟩ := Option.bind_eq_some_iff.1 hp
      have hplace := hnew.live hl
      -- the former segment there, if there is one, is no list region
      have hnone : formerList ((inheritedAt new before ids).bind asRegion?) = [] := by
        apply formerList_eq_nil
        intro former hf
        rw [← sameShape_of_isList (isList_of_policy? hpolicy), Bool.eq_false_iff]
        intro hshape
        exact h ((matchedIn_iff hl before).2 ⟨former, hf, hshape⟩)
      rw [emittedAt, live?_merge, hl, emittedAt_eq hl]
      simp only [Option.map_some, Option.getD_some]
      rw [childOrder_merge hplace hpolicy, hnone]
      cases policy with
      | generated => rfl
      | preserve => exact firstOccurrences_of_nodup (nodup_childOrder hplace)

/-- **The order at a continuing place** is that of the new policy for what both trees
emit there. -/
theorem emittedAt_merge_of_matched {old : Segment} (hold : old.WellFormed) {policy : OrderPolicy}
    (hp : new.policyAt? ids = some policy) (hm : Matched new old ids) :
    (merge new (some old)).emittedAt ids
      = policy.emission (new.emittedAt ids) (old.emittedAt ids) := by
  obtain ⟨place, hl, hpolicy⟩ := Option.bind_eq_some_iff.1 hp
  obtain ⟨former, hf, hshape⟩ := (matchedIn_iff hl (some old)).1 ⟨old, rfl, hm⟩
  have hformer := live?_of_inheritedAt hf
  rw [sameShape_of_isList (isList_of_policy? hpolicy)] at hshape
  rw [emittedAt, live?_merge, hl, emittedAt_eq hl, emittedAt_eq hformer]
  simp only [Option.map_some, Option.getD_some, hf]
  rw [childOrder_merge (hnew.live hl) hpolicy, ids_formerList (hold.live hformer) hshape]

/-- At a continuing place that preserves its order, what was emitted and is generated again
comes first, in the order it was emitted in, and what is new follows as generated. -/
theorem emittedAt_merge_of_preserve {old : Segment} (hold : old.WellFormed)
    (hp : new.policyAt? ids = some .preserve) (hm : Matched new old ids) :
    (merge new (some old)).emittedAt ids
      = (old.emittedAt ids).filter (fun id => (new.emittedAt ids).contains id)
        ++ (new.emittedAt ids).filter fun id => !(old.emittedAt ids).contains id := by
  rw [emittedAt_merge_of_matched hnew hold hp hm,
    OrderPolicy.emission_preserve (nodup_emittedAt hnew ids) (nodup_emittedAt hold ids)]

end Places

/-- Every place of a merge emits what the new tree emits there, in some order. -/
theorem emittedAt_merge_perm {new : Segment} (hnew : new.WellFormed) {before : Option Segment}
    (hb : ∀ old, before = some old → old.WellFormed) (ids : List String) :
    ((merge new before).emittedAt ids).Perm (new.emittedAt ids) := by
  by_cases hm : MatchedIn new before ids
  · obtain ⟨old, rfl, hm⟩ := hm
    cases hp : new.policyAt? ids with
    | none => rw [emittedAt_merge_of_other hnew hp]
    | some policy =>
        rw [emittedAt_merge_of_matched hnew (hb old rfl) hp hm]
        exact OrderPolicy.emission_perm policy _ (nodup_emittedAt hnew ids)
  · rw [emittedAt_merge_of_not_matched hnew hm]

/-- **The order of every list region of a merge.** It is the generated one if the new
region's policy says so or if the place continues none of the former tree. Otherwise the
ids that were emitted there and are generated again come first, in their former order, and
the other generated ids follow in theirs. In any case each generated id is emitted once.

The former tree enters with its shapes and its orders only: another one that has the same
of both, whatever its policies, contents and histories, makes no difference at any place. -/
theorem order_merge {new : Segment} (hnew : new.WellFormed) {before : Option Segment}
    (hb : ∀ old, before = some old → old.WellFormed) :
    (∀ ids policy, (merge new before).policyAt? ids = some policy →
      new.policyAt? ids = some policy ∧
      (policy = .generated ∨ ¬ MatchedIn new before ids →
        (merge new before).emittedAt ids = new.emittedAt ids) ∧
      (policy = .preserve → ∀ old, before = some old → Matched new old ids →
        (merge new before).emittedAt ids
          = (old.emittedAt ids).filter (fun id => (new.emittedAt ids).contains id)
            ++ (new.emittedAt ids).filter fun id => !(old.emittedAt ids).contains id) ∧
      ((merge new before).emittedAt ids).Nodup ∧
      ((merge new before).emittedAt ids).Perm (new.emittedAt ids)) ∧
    ∀ old other, before = some old → other.WellFormed → SameShapes old other →
      (∀ ids, old.emittedAt ids = other.emittedAt ids) →
      ∀ ids, (merge new (some other)).emittedAt ids = (merge new before).emittedAt ids := by
  constructor
  · intro ids policy hp
    rw [policyAt?_merge] at hp
    refine ⟨hp, ?_, ?_, nodup_emittedAt (hnew.merge hb) ids, emittedAt_merge_perm hnew hb ids⟩
    · intro h
      by_cases hm : MatchedIn new before ids
      · obtain ⟨old, rfl, hm⟩ := hm
        have hgenerated : policy = .generated := by
          rcases h with h | h
          · exact h
          · exact absurd ⟨old, rfl, hm⟩ h
        rw [emittedAt_merge_of_matched hnew (hb old rfl) hp hm, hgenerated,
          OrderPolicy.emission_generated]
      · exact emittedAt_merge_of_not_matched hnew hm
    · rintro rfl old rfl hm
      exact emittedAt_merge_of_preserve hnew (hb old rfl) hp hm
  · rintro old other rfl hother hshapes horders ids
    -- places are matched by shapes alone, and at a matched place only the orders enter
    cases hp : new.policyAt? ids with
    | none => rw [emittedAt_merge_of_other hnew hp, emittedAt_merge_of_other hnew hp]
    | some policy =>
        by_cases hm : Matched new old ids
        · have hm' := hshapes.matched_iff.1 hm
          rw [emittedAt_merge_of_matched hnew (hb old rfl) hp hm,
            emittedAt_merge_of_matched hnew hother hp hm', horders]
        · have hm' : ¬ Matched new other ids := fun h => hm (hshapes.matched_iff.2 h)
          rw [emittedAt_merge_of_not_matched hnew (mt matchedIn_some_iff.1 hm),
            emittedAt_merge_of_not_matched hnew (mt matchedIn_some_iff.1 hm')]

/-- Row `a` is gone, rows `c` and `b` stay in the order they were emitted in, and row `d`
comes last. The policy of the rows held makes no difference. -/
theorem order_merge_rows :
    WellFormed (.region (Sample.rowsOf ["b", "d", "c"])) ∧
    (∀ old, some (Sample.rowsHeld .preserve) = some old → WellFormed old) ∧
    (merge (.region (Sample.rowsOf ["b", "d", "c"]))
      (some (Sample.rowsHeld .preserve))).emittedAt [] = ["c", "b", "d"] ∧
    (merge (.region (Sample.rowsOf ["b", "d", "c"]))
      (some (Sample.rowsHeld .generated))).emittedAt [] = ["c", "b", "d"] := by
  have hnew : WellFormed (.region (Sample.rowsOf ["b", "d", "c"])) := by decide
  have hold : WellFormed (Sample.rowsHeld .preserve) := by decide
  have hother : WellFormed (Sample.rowsHeld .generated) := by decide
  have hb := hold.of_some_eq
  obtain ⟨horder, hpolicy⟩ := order_merge hnew hb
  obtain ⟨-, -, hpreserved, -, -⟩ := horder [] .preserve rfl
  have hkept : (merge (.region (Sample.rowsOf ["b", "d", "c"]))
      (some (Sample.rowsHeld .preserve))).emittedAt [] = ["c", "b", "d"] :=
    hpreserved rfl _ rfl (by decide)
  have hshapes : SameShapes (Sample.rowsHeld .preserve) (Sample.rowsHeld .generated) := by
    intro ids
    cases ids <;> rfl
  have horders : ∀ ids, (Sample.rowsHeld .preserve).emittedAt ids
      = (Sample.rowsHeld .generated).emittedAt ids := by
    intro ids
    cases ids <;> rfl
  refine ⟨hnew, hb, hkept, ?_⟩
  rw [hpolicy _ _ rfl hother hshapes horders, hkept]

end Regeneration.Segment
