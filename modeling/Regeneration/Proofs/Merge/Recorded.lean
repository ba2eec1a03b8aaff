import Regeneration.Proofs.Merge.Shape

/-!
# Merging as records see it

Records have no synchronized segments and no history, so a merge of records has
four cases and one rule of order: what the policy makes of the former ids. This
is the whole of merging as far as anything emitted can tell. The record of a
merge is the merge of the records, and the counters are the counters.

Main statements: `ofSegment_merge`, `mergeStats_ofSegment` and `WellFormed.merge`
(merging keeps trees well formed).
-/

set_option autoImplicit false

namespace Regeneration

namespace MergeStats

/-- Counters may be summed in any order. -/
theorem sum_perm {all others : List MergeStats} (h : all.Perm others) : all.sum = others.sum := by
  induction h with
  | nil => rfl
  | cons stats _ ih => rw [List.sum_cons, List.sum_cons, ih]
  | swap a b rest =>
      -- addition of counters is associative and commutative
      rw [List.sum_cons, List.sum_cons, List.sum_cons, List.sum_cons, ← add_assoc, ← add_assoc,
        add_comm b a]
  | trans _ _ ih ih' => exact ih.trans ih'

end MergeStats

namespace Record

/-- The recorded children of a former composite; none if the former segment was
something else. -/
def formerChildren (before : Option Record) : List Record :=
  match before with
  | some (.composite _ children) => children
  | _ => []

/-- The recorded children of a former list region. -/
def formerList (before : Option Record) : List Record :=
  match before with
  | some (.region _ _ children) => children
  | _ => []

mutual
/-- The record of the new tree with what the former record contributes. -/
def merge : Record → Option Record → Record
  | .literal id content, _ => .literal id content
  | .editable id content, before =>
    match before with
    | some (.editable _ former) => .editable id former
    | _ => .editable id content
  | .composite id children, before => .composite id (mergeEach children (formerChildren before))
  | .region id policy children, before =>
    let former := formerList before
    .region id policy
      (policy.arranged Record.id (former.map Record.id) (mergeEach children former))
termination_by structural record => record

/-- Each record merged with the former one of its id. -/
def mergeEach : List Record → List Record → List Record
  | [], _ => []
  | child :: rest, former =>
    merge child (Keyed.find? Record.id child.id former) :: mergeEach rest former
termination_by structural records => records
end

/-- Whether a recorded child continues a former one. -/
def continues (child : Record) (before : Option Record) : Bool :=
  match before with
  | some before => child.kind == before.kind
  | none => false

/-- What a list region itself adds to the counters. -/
def listStats (children former : List Record) : MergeStats :=
  { preserved := 0
    defaulted := 0
    dropped := former.countP fun gone => !Keyed.contains Record.id gone.id children
    introduced := children.countP fun child =>
      !continues child (Keyed.find? Record.id child.id former) }

mutual
/-- The counters of a merge of records. -/
def mergeStats : Record → Option Record → MergeStats
  | .literal .., _ => 0
  | .editable .., before =>
    match before with
    | some (.editable ..) => ⟨1, 0, 0, 0⟩
    | _ => ⟨0, 1, 0, 0⟩
  | .composite _ children, before => mergeStatsEach children (formerChildren before)
  | .region _ _ children, before =>
    listStats children (formerList before) + mergeStatsEach children (formerList before)
termination_by structural record => record

/-- The counters of merging each record with the former one of its id. -/
def mergeStatsEach : List Record → List Record → MergeStats
  | [], _ => 0
  | child :: rest, former =>
    mergeStats child (Keyed.find? Record.id child.id former) + mergeStatsEach rest former
termination_by structural records => records
end

theorem mergeEach_eq_map (records former : List Record) :
    mergeEach records former
      = records.map fun record => merge record (Keyed.find? Record.id record.id former) := by
  induction records with
  | nil => rfl
  | cons record rest ih => rw [mergeEach, ih, List.map_cons]

theorem mergeStatsEach_eq_sum (records former : List Record) :
    mergeStatsEach records former
      = (records.map fun record =>
          mergeStats record (Keyed.find? Record.id record.id former)).sum := by
  induction records with
  | nil => rfl
  | cons record rest ih => rw [mergeStatsEach, ih, List.map_cons, List.sum_cons]

@[simp] theorem id_merge (record : Record) (before : Option Record) :
    (merge record before).id = record.id := by
  cases record with
  | editable id content =>
      cases before with
      | none => rfl
      | some former => cases former <;> rfl
  | literal | composite | region => rfl

theorem map_id_mergeEach (records former : List Record) :
    (mergeEach records former).map Record.id = records.map Record.id := by
  simp only [mergeEach_eq_map, List.map_map, Function.comp_def, id_merge]

/-- What a list region adds to the counters does not depend on the order of its
children. -/
theorem listStats_perm {children others : List Record} (h : children.Perm others)
    (former : List Record) : listStats children former = listStats others former := by
  -- the dropped are counted by membership, the introduced one by one
  have hc : ∀ id, Keyed.contains Record.id id children = Keyed.contains Record.id id others := by
    intro id
    rw [Bool.eq_iff_iff, Keyed.contains_iff, Keyed.contains_iff]
    exact (h.map Record.id).mem_iff
  simp only [listStats, hc, h.countP_eq]

theorem mergeStatsEach_perm {children others : List Record} (h : children.Perm others)
    (former : List Record) : mergeStatsEach children former = mergeStatsEach others former := by
  simp only [mergeStatsEach_eq_sum]
  exact MergeStats.sum_perm (h.map _)

end Record

namespace Segment

theorem map_id_mergeEach (trees : List Segment) (former : Children) :
    Children.ids (mergeEach trees former) = Children.ids trees := by
  simp only [Children.ids, mergeEach_eq_map, List.map_map, Function.comp_def, id_merge]

/-- Distinct ids let no merged child be dropped. -/
theorem keepFirst_mergeEach {trees : List Segment} (hd : Children.Distinct trees)
    (former : Children) : Keyed.keepFirst Segment.id (mergeEach trees former)
      = mergeEach trees former := by
  apply Keyed.keepFirst_of_nodup
  have hids := map_id_mergeEach trees former
  rw [Children.ids] at hids
  rw [hids]
  exact hd

/-- **A merge flattens a synchronized new segment first**: it reads its merged side
in emitted order and nothing of its history. -/
theorem merge_flatten (merged : Region Segment) (past : Option (Region Segment))
    (order : List String) (before : Option Segment) :
    merge (.synchronized merged past order) before
      = merge (.region (flatten merged order)) before := by
  -- merging keeps ids, so it does not matter whether it comes before arranging
  have harrange : ∀ former : Children,
      Children.arrange order (mergeEach merged.children former)
        = mergeEach (Children.arrange order merged.children) former := by
    intro former
    have hid : ∀ tree : Segment, (merge tree (former.get? tree.id)).id = tree.id := by
      intro tree
      exact id_merge tree _
    simp only [Children.arrange, mergeEach_eq_map]
    exact Keyed.arrange_map hid order merged.children
  rw [merge, merge]
  simp only [harrange]
  rfl

/-! ## Merging keeps trees well formed -/

section WellFormed

variable {before : Option Segment} (hb : ∀ old, before = some old → old.WellFormed)

include hb

theorem wellFormed_formerChildren : ∀ child ∈ formerChildren before, child.WellFormed := by
  intro child hc
  cases before with
  | none => cases hc
  | some old =>
      cases old with
      | composite => exact (hb _ rfl).each hc
      | literal | editable | region | synchronized => cases hc

theorem wellFormed_formerRegion :
    ∀ list, before.bind asRegion? = some list → WellFormed (.region list) := by
  intro list hl
  obtain ⟨old, rfl, hl⟩ := Option.bind_eq_some_iff.1 hl
  exact (hb old rfl).asRegion hl

theorem wellFormed_formerList :
    ∀ child ∈ formerList (before.bind asRegion?), child.WellFormed := by
  intro child hc
  cases hl : before.bind asRegion? with
  | none =>
      rw [hl] at hc
      cases hc
  | some list =>
      rw [hl] at hc
      exact (wellFormed_formerRegion hb list hl).each hc

end WellFormed

theorem wellFormed_mergeEach {trees : List Segment} {former : Children}
    (ih : ∀ tree ∈ trees, ∀ before : Option Segment,
      (∀ old, before = some old → old.WellFormed) → (merge tree before).WellFormed)
    (hf : ∀ old ∈ former, old.WellFormed) :
    ∀ tree ∈ mergeEach trees former, tree.WellFormed := by
  intro merged hm
  rw [mergeEach_eq_map] at hm
  obtain ⟨tree, ht, rfl⟩ := List.mem_map.1 hm
  apply ih tree ht
  intro old ho
  exact hf old (Keyed.mem_of_find? ho)

theorem distinct_mergeEach {trees : List Segment} (hd : Children.Distinct trees)
    (former : Children) : Children.Distinct (mergeEach trees former) := by
  rw [Children.Distinct, map_id_mergeEach]
  exact hd

theorem wellFormed_merge_region {list : Region Segment} {before : Option Segment}
    (hd : Children.Distinct list.children) (hb : ∀ old, before = some old → old.WellFormed)
    (ih : ∀ tree ∈ list.children, ∀ before : Option Segment,
      (∀ old, before = some old → old.WellFormed) → (merge tree before).WellFormed) :
    (merge (.region list) before).WellFormed := by
  have hmerged : WellFormed (.region ⟨list.id, list.policy,
      mergeEach list.children (formerList (before.bind asRegion?))⟩) :=
    .region (distinct_mergeEach hd _) (wellFormed_mergeEach ih (wellFormed_formerList hb))
  rw [merge]
  simp only [keepFirst_mergeEach hd]
  exact wellFormed_synchronize hmerged (wellFormed_formerRegion hb) _

/-- **A merge of well-formed trees is well formed.** -/
theorem WellFormed.merge {new : Segment} (h : new.WellFormed) {before : Option Segment}
    (hb : ∀ old, before = some old → old.WellFormed) : (merge new before).WellFormed := by
  induction h generalizing before with
  | literal id content => exact .literal id content
  | editable id content =>
      cases before with
      | none => exact .editable id content
      | some old =>
          cases old with
          | editable _ former => exact .editable id former
          | literal | composite | region | synchronized => exact .editable id content
  | composite distinct _ ih =>
      rw [Segment.merge, keepFirst_mergeEach distinct]
      exact .composite (distinct_mergeEach distinct _)
        (wellFormed_mergeEach (fun tree ht _ hb => ih tree ht hb) (wellFormed_formerChildren hb))
  | region distinct _ ih => exact wellFormed_merge_region distinct hb fun tree ht _ => ih tree ht
  | @synchronized list past order distinct each listed history ih _ =>
      -- flattened first, it is a plain region with the same children
      have h := WellFormed.synchronized distinct each listed history
      rw [merge_flatten]
      apply wellFormed_merge_region (wellFormed_flatten h).distinct hb
      intro tree ht _
      exact ih tree ((Keyed.arrange_perm order list.children).subset ht)

/-! ## The record of a merge -/

theorem ofSegment_formerChildren (before : Option Segment) :
    Record.formerChildren (before.map Record.ofSegment)
      = (formerChildren before).map Record.ofSegment := by
  cases before with
  | none => rfl
  | some old => cases old <;> simp [Record.formerChildren, formerChildren, Record.ofSegment]

theorem ofSegment_formerList {before : Option Segment}
    (hb : ∀ old, before = some old → old.WellFormed) :
    Record.formerList (before.map Record.ofSegment)
      = (formerList (before.bind asRegion?)).map Record.ofSegment := by
  cases before with
  | none => rfl
  | some old =>
      cases old with
      | region list => simp [Record.formerList, formerList, asRegion?, Record.ofSegment]
      | synchronized merged former order => exact Record.children_ofSegment (hb _ rfl)
      | literal | editable | composite => rfl

theorem find?_ofSegment (former : Children) (id : String) :
    Keyed.find? Record.id id (former.map Record.ofSegment)
      = (former.get? id).map Record.ofSegment :=
  Keyed.find?_map Record.id_ofSegment id former

/-- The record of a concluded region. -/
theorem ofSegment_conclude {merged : Region Segment} (hd : Children.Distinct merged.children)
    (former : Option (Region Segment)) :
    Record.ofSegment (conclude merged former)
      = .region merged.id merged.policy
          (merged.policy.arranged Record.id
            (((formerList former).map Record.ofSegment).map Record.id)
            (merged.children.map Record.ofSegment)) := by
  have hids := Record.ids_ofSegment merged.children
  have hdRecords : ((merged.children.map Record.ofSegment).map Record.id).Nodup := by
    rw [hids]
    exact hd
  -- trees and records request the same order, which distinct ids let stand
  rw [conclude, synchronize, Record.ofSegment, Record.ofSegments_eq_map, ← hids,
    ← Record.ids_ofSegment (formerList former),
    OrderPolicy.pick_settleOrder_emission merged.policy _ hdRecords]

section Children

variable {trees : List Segment} {former : Children}
  (hf : ∀ old ∈ former, old.WellFormed)

include hf

theorem ofSegment_mergeEach
    (ih : ∀ tree ∈ trees, ∀ before : Option Segment,
      (∀ old, before = some old → old.WellFormed) →
        Record.ofSegment (merge tree before)
          = Record.merge (Record.ofSegment tree) (before.map Record.ofSegment)) :
    (mergeEach trees former).map Record.ofSegment
      = Record.mergeEach (trees.map Record.ofSegment) (former.map Record.ofSegment) := by
  rw [mergeEach_eq_map, Record.mergeEach_eq_map, List.map_map, List.map_map]
  apply List.map_congr_left
  intro tree ht
  simp only [Function.comp_apply, Record.id_ofSegment, find?_ofSegment]
  apply ih tree ht
  intro old ho
  exact hf old (Keyed.mem_of_find? ho)

theorem mergeStatsEach_ofSegment
    (ih : ∀ tree ∈ trees, ∀ before : Option Segment,
      (∀ old, before = some old → old.WellFormed) →
        mergeStats tree before
          = Record.mergeStats (Record.ofSegment tree) (before.map Record.ofSegment)) :
    mergeStatsEach trees former
      = Record.mergeStatsEach (trees.map Record.ofSegment) (former.map Record.ofSegment) := by
  induction trees with
  | nil => rfl
  | cons tree rest ihRest =>
      have hbefore : ∀ old, former.get? tree.id = some old → old.WellFormed := by
        intro old ho
        exact hf old (Keyed.mem_of_find? ho)
      have hhead := ih tree List.mem_cons_self (former.get? tree.id) hbefore
      have hrest := ihRest fun other ho => ih other (List.mem_cons_of_mem tree ho)
      rw [mergeStatsEach, List.map_cons, Record.mergeStatsEach, Record.id_ofSegment,
        find?_ofSegment, hhead, hrest]

end Children

theorem continues_ofSegment (child : Segment) (before : Option Segment) :
    Record.continues (Record.ofSegment child) (before.map Record.ofSegment)
      = continues child before := by
  cases before with
  | none => rfl
  | some old =>
      rw [Option.map_some, Record.continues, continues, Bool.eq_iff_iff, beq_iff_eq, sameShape_iff,
        kind_ofSegment, kind_ofSegment]

theorem listStats_ofSegment (trees : List Segment) (former : Children) :
    listStats trees former
      = Record.listStats (trees.map Record.ofSegment) (former.map Record.ofSegment) := by
  have hcontains : ∀ id, Keyed.contains Record.id id (trees.map Record.ofSegment)
      = Children.contains trees id := fun id => Keyed.contains_map Record.id_ofSegment id trees
  simp only [listStats, Record.listStats, List.countP_map, Function.comp_def,
    Record.id_ofSegment, hcontains, find?_ofSegment, continues_ofSegment]

theorem ofSegment_merge_region {list : Region Segment} {before : Option Segment}
    (hd : Children.Distinct list.children) (hb : ∀ old, before = some old → old.WellFormed)
    (ih : ∀ tree ∈ list.children, ∀ before : Option Segment,
      (∀ old, before = some old → old.WellFormed) →
        Record.ofSegment (merge tree before)
          = Record.merge (Record.ofSegment tree) (before.map Record.ofSegment)) :
    Record.ofSegment (merge (.region list) before)
      = Record.merge (Record.ofSegment (.region list)) (before.map Record.ofSegment) := by
  rw [merge, Record.ofSegment, Record.merge, Record.ofSegments_eq_map]
  simp only [keepFirst_mergeEach hd]
  rw [ofSegment_conclude (distinct_mergeEach hd _), ofSegment_formerList hb]
  simp only [ofSegment_mergeEach (wellFormed_formerList hb) ih]

/-- **The record of a merge is the merge of the records.** -/
theorem ofSegment_merge {new : Segment} (h : new.WellFormed) {before : Option Segment}
    (hb : ∀ old, before = some old → old.WellFormed) :
    Record.ofSegment (merge new before)
      = Record.merge (Record.ofSegment new) (before.map Record.ofSegment) := by
  induction h generalizing before with
  | literal id content => rfl
  | editable id content =>
      cases before with
      | none => rfl
      | some old => cases old <;> rfl
  | composite distinct _ ih =>
      rw [merge, keepFirst_mergeEach distinct, Record.ofSegment, Record.ofSegment, Record.merge,
        ofSegment_formerChildren, Record.ofSegments_eq_map, Record.ofSegments_eq_map,
        ofSegment_mergeEach (wellFormed_formerChildren hb) fun tree ht _ => ih tree ht]
  | region distinct _ ih => exact ofSegment_merge_region distinct hb fun tree ht _ => ih tree ht
  | @synchronized list past order distinct each listed history ih _ =>
      have h := WellFormed.synchronized distinct each listed history
      -- flattened first, it is a plain region of the same record
      rw [merge_flatten, ← Record.ofSegment_flatten h]
      apply ofSegment_merge_region (wellFormed_flatten h).distinct hb
      intro tree ht _
      exact ih tree ((Keyed.arrange_perm order list.children).subset ht)

/-- The counters of a list, wherever its children stand in it. -/
theorem mergeStats_ofSegment_list {trees : List Segment} {records : List Record}
    {before : Option Segment} (hp : records.Perm (trees.map Record.ofSegment))
    (hb : ∀ old, before = some old → old.WellFormed)
    (ih : ∀ tree ∈ trees, ∀ before : Option Segment,
      (∀ old, before = some old → old.WellFormed) →
        mergeStats tree before
          = Record.mergeStats (Record.ofSegment tree) (before.map Record.ofSegment))
    (id : String) (policy : OrderPolicy) :
    listStats trees (formerList (before.bind asRegion?))
        + mergeStatsEach trees (formerList (before.bind asRegion?))
      = Record.mergeStats (.region id policy records) (before.map Record.ofSegment) := by
  rw [Record.mergeStats, Record.listStats_perm hp, Record.mergeStatsEach_perm hp,
    ofSegment_formerList hb, ← listStats_ofSegment,
    mergeStatsEach_ofSegment (wellFormed_formerList hb) ih]

/-- **The counters of a merge are those of the merge of the records.** -/
theorem mergeStats_ofSegment {new : Segment} (h : new.WellFormed) {before : Option Segment}
    (hb : ∀ old, before = some old → old.WellFormed) :
    mergeStats new before
      = Record.mergeStats (Record.ofSegment new) (before.map Record.ofSegment) := by
  induction h generalizing before with
  | literal id content => rfl
  | editable id content =>
      cases before with
      | none => rfl
      | some old => cases old <;> rfl
  | composite distinct _ ih =>
      rw [mergeStats, Record.ofSegment, Record.mergeStats, ofSegment_formerChildren,
        Record.ofSegments_eq_map,
        mergeStatsEach_ofSegment (wellFormed_formerChildren hb) fun tree ht _ => ih tree ht]
  | @region list distinct _ ih =>
      rw [mergeStats, Record.ofSegment, Record.ofSegments_eq_map]
      exact mergeStats_ofSegment_list (List.Perm.refl _) hb (fun tree ht _ => ih tree ht) _ _
  | @synchronized list past order distinct each listed history ih _ =>
      have h := WellFormed.synchronized distinct each listed history
      -- the children are recorded in emitted order and counted as stored
      have hp : (Record.ofSegment (.synchronized list past order)).children.Perm
          (list.children.map Record.ofSegment) := by
        rw [Record.children_ofSegment h]
        exact (Keyed.arrange_perm order list.children).map _
      exact mergeStats_ofSegment_list hp hb (fun tree ht _ => ih tree ht) _ _

end Segment

end Regeneration
