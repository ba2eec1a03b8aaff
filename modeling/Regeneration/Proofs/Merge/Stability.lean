import Mathlib.Algebra.GroupWithZero.Nat
import Regeneration.Proofs.Merge.Persistence

/-!
# Stability of merging

Merging a second time changes nothing: neither when the new tree meets its own
merge, nor when the merge meets the former tree again, nor when a tree meets
itself. The first and the last are one fact about records: whatever the new record
may become, it becomes again when merged with it (`merge_of_yields`), with every
editable leaf preserved and nothing else counted (`mergeStats_of_yields`). The
second holds of all records (`merge_merge` and `mergeStats_merge`).

Main statement: `merge_stable`.
-/

set_option autoImplicit false

namespace Regeneration

namespace Record

/-! ## Merging with the same former record again -/

theorem kind_merge (record : Record) (before : Option Record) :
    (merge record before).kind = record.kind := by
  cases record with
  | editable id content =>
      cases before with
      | none => rfl
      | some former => cases former <;> rfl
  | literal | composite | region => rfl

theorem mergeEach_mergeEach {children : List Record} (former : List Record)
    (ih : ∀ child ∈ children, ∀ before, merge (merge child before) before = merge child before) :
    mergeEach (mergeEach children former) former = mergeEach children former := by
  simp only [mergeEach_eq_map, List.map_map]
  apply List.map_congr_left
  intro child hc
  simp only [Function.comp_apply, id_merge]
  exact ih child hc _

theorem mergeEach_arranged (policy : OrderPolicy) (order : List String)
    (children former : List Record) :
    mergeEach (policy.arranged Record.id order children) former
      = policy.arranged Record.id order (mergeEach children former) := by
  have hid : ∀ record : Record,
      (merge record (Keyed.find? Record.id record.id former)).id = record.id := by
    intro record
    exact id_merge record _
  rw [mergeEach_eq_map, mergeEach_eq_map, OrderPolicy.arranged_map hid]

/-- **A merge meets the same former record again** and stays what it is. -/
theorem merge_merge (record : Record) (before : Option Record) :
    merge (merge record before) before = merge record before := by
  induction record using record_induction generalizing before with
  | literal => rfl
  | editable id content =>
      cases before with
      | none => rfl
      | some former => cases former <;> rfl
  | composite id children ih =>
      rw [merge, merge, mergeEach_mergeEach _ ih]
  | region id policy children ih =>
      simp only [merge, mergeEach_arranged, mergeEach_mergeEach _ ih,
        OrderPolicy.arranged_arranged]

theorem mergeStatsEach_mergeEach {children : List Record} (former : List Record)
    (ih : ∀ child ∈ children, ∀ before,
      mergeStats (merge child before) before = mergeStats child before) :
    mergeStatsEach (mergeEach children former) former = mergeStatsEach children former := by
  rw [mergeStatsEach_eq_sum, mergeStatsEach_eq_sum, mergeEach_eq_map, List.map_map]
  congr 1
  apply List.map_congr_left
  intro child hc
  simp only [Function.comp_apply, id_merge]
  exact ih child hc _

theorem listStats_mergeEach (children former : List Record) :
    listStats (mergeEach children former) former = listStats children former := by
  have hcontains : ∀ id, Keyed.contains Record.id id (mergeEach children former)
      = Keyed.contains Record.id id children := by
    intro id
    rw [Bool.eq_iff_iff, Keyed.contains_iff, Keyed.contains_iff, map_id_mergeEach]
  have hcontinues : ∀ (child : Record) (former before : Option Record),
      continues (merge child before) former = continues child former := by
    intro child former before
    simp only [continues, kind_merge]
  simp only [listStats, hcontains]
  simp only [mergeEach_eq_map, List.countP_map, Function.comp_def, id_merge, hcontinues]

/-- Merging the same former record again counts the same again. -/
theorem mergeStats_merge (record : Record) (before : Option Record) :
    mergeStats (merge record before) before = mergeStats record before := by
  induction record using record_induction generalizing before with
  | literal => rfl
  | editable id content =>
      cases before with
      | none => rfl
      | some former => cases former <;> rfl
  | composite id children ih =>
      rw [merge, mergeStats, mergeStats, mergeStatsEach_mergeEach _ ih]
  | region id policy children ih =>
      have hp : (policy.arranged Record.id ((formerList before).map Record.id)
          (mergeEach children (formerList before))).Perm
            (mergeEach children (formerList before)) := OrderPolicy.arranged_perm policy _ _
      -- the children may have moved, which does not count
      rw [merge, mergeStats, mergeStats, listStats_perm hp, mergeStatsEach_perm hp,
        listStats_mergeEach, mergeStatsEach_mergeEach _ ih]

/-! ## What a record may become -/

mutual
/-- Whether merging may turn the record `new` into another one: shape, ids, policies
and literals stay, editable contents are free, and a list region that preserves its
order may have any order. -/
def Yields : Record → Record → Prop
  | .literal id content, merged => merged = .literal id content
  | .editable id _, merged => ∃ content, merged = .editable id content
  | .composite id children, merged =>
    ∃ others : List Record, merged = .composite id others ∧
      others.map Record.id = children.map Record.id ∧ YieldsEach children others
  | .region id policy children, merged =>
    ∃ others : List Record, merged = .region id policy others ∧
      (others.map Record.id).Perm (children.map Record.id) ∧
      (policy = .generated → others.map Record.id = children.map Record.id) ∧
      YieldsEach children others
termination_by structural new => new

/-- Whether merging may turn each record into the one of its id. -/
def YieldsEach : List Record → List Record → Prop
  | [], _ => True
  | child :: rest, others =>
    (∃ other, Keyed.find? Record.id child.id others = some other ∧ Yields child other) ∧
      YieldsEach rest others
termination_by structural children => children
end

theorem yieldsEach_iff {children others : List Record} :
    YieldsEach children others ↔ ∀ child ∈ children, ∃ other,
      Keyed.find? Record.id child.id others = some other ∧ Yields child other := by
  induction children with
  | nil => exact ⟨fun _ _ hm => (nomatch hm), fun _ => trivial⟩
  | cons child rest ih => rw [YieldsEach, ih, List.forall_mem_cons]

/-- What holds of all that children may become holds of what they became. -/
theorem YieldsEach.exists_of {P : Record → Record → Prop} {children others : List Record}
    (hy : YieldsEach children others)
    (h : ∀ child ∈ children, ∀ other, Yields child other → P child other) :
    ∀ child ∈ children, ∃ other,
      Keyed.find? Record.id child.id others = some other ∧ P child other := by
  intro child hc
  obtain ⟨other, hf, ho⟩ := yieldsEach_iff.1 hy child hc
  exact ⟨other, hf, h child hc other ho⟩

/-- A record may stay what it is. -/
theorem Consistent.yields_self {record : Record} (h : record.Consistent) :
    Yields record record := by
  induction h with
  | literal => rfl
  | editable _ content => exact ⟨content, rfl⟩
  | @composite id children distinct _ ih =>
      refine ⟨children, rfl, rfl, yieldsEach_iff.2 ?_⟩
      intro child hc
      exact ⟨child, Keyed.find?_of_mem distinct hc, ih child hc⟩
  | @region id policy children distinct _ ih =>
      refine ⟨children, rfl, List.Perm.refl _, fun _ => rfl, yieldsEach_iff.2 ?_⟩
      intro child hc
      exact ⟨child, Keyed.find?_of_mem distinct hc, ih child hc⟩

theorem yieldsEach_mergeEach {children former : List Record}
    (distinct : (children.map Record.id).Nodup)
    (ih : ∀ child ∈ children, ∀ before, Yields child (merge child before)) :
    YieldsEach children (mergeEach children former) := by
  rw [yieldsEach_iff]
  intro child hc
  refine ⟨merge child (Keyed.find? Record.id child.id former), ?_, ih child hc _⟩
  have hid : ∀ record : Record,
      (merge record (Keyed.find? Record.id record.id former)).id = record.id := by
    intro record
    exact id_merge record _
  rw [mergeEach_eq_map, Keyed.find?_map hid, Keyed.find?_of_mem distinct hc, Option.map_some]

/-- A merge is one of the records that the new one may become. -/
theorem Consistent.yields_merge {record : Record} (h : record.Consistent)
    (before : Option Record) : Yields record (merge record before) := by
  induction h generalizing before with
  | literal => rfl
  | editable id content =>
      cases before with
      | none => exact ⟨content, rfl⟩
      | some former =>
          cases former with
          | editable _ kept => exact ⟨kept, rfl⟩
          | literal | composite | region => exact ⟨content, rfl⟩
  | composite distinct _ ih =>
      rw [merge]
      exact ⟨_, rfl, map_id_mergeEach _ _, yieldsEach_mergeEach distinct ih⟩
  | @region id policy children distinct _ ih =>
      have hids := map_id_mergeEach children (formerList before)
      have hp : (policy.arranged Record.id ((formerList before).map Record.id)
          (mergeEach children (formerList before))).Perm
            (mergeEach children (formerList before)) := OrderPolicy.arranged_perm policy _ _
      -- the policy reorders what was merged and changes none of it
      rw [merge]
      refine ⟨_, rfl, hids ▸ hp.map Record.id, ?_, ?_⟩
      · rintro rfl
        exact hids
      · rw [yieldsEach_iff]
        intro child hc
        rw [OrderPolicy.find?_arranged]
        exact yieldsEach_iff.1 (yieldsEach_mergeEach distinct ih) child hc

/-! ## Merging with what a record became -/

/-- Children that become again what they became are the former children, chosen by
the ids of the new ones. -/
theorem mergeEach_eq_pick {children others : List Record}
    (h : ∀ child ∈ children, ∃ other, Keyed.find? Record.id child.id others = some other ∧
      merge child (some other) = other) :
    mergeEach children others = Keyed.pick Record.id (children.map Record.id) others := by
  induction children with
  | nil => rfl
  | cons child rest ih =>
      obtain ⟨other, hf, hm⟩ := h child List.mem_cons_self
      have hrest := ih fun next hn => h next (List.mem_cons_of_mem _ hn)
      simp only [Keyed.pick, List.map_cons, List.filterMap_cons, hf] at hrest ⊢
      rw [mergeEach, hf, hm, hrest]

/-- **What a record becomes, it becomes again** when merged with it. -/
theorem merge_of_yields {record merged : Record} (h : record.Consistent)
    (hy : Yields record merged) : merge record (some merged) = merged := by
  induction h generalizing merged with
  | literal =>
      cases hy
      rfl
  | editable id _ =>
      obtain ⟨content, rfl⟩ := hy
      rfl
  | @composite id children distinct _ ih =>
      obtain ⟨others, rfl, hids, hy⟩ := hy
      have heach := mergeEach_eq_pick (hy.exists_of fun child hc _ => ih child hc)
      -- merging the children chooses the former ones, and these are all of them
      rw [merge, formerChildren, heach, ← hids, Keyed.pick_keys_of_perm (List.Perm.refl _)]
      rwa [hids]
  | @region id policy children distinct _ ih =>
      obtain ⟨others, rfl, hp, hgenerated, hy⟩ := hy
      have heach := mergeEach_eq_pick (hy.exists_of fun child hc _ => ih child hc)
      -- the former children in generated order, a permutation of them
      obtain ⟨generated, hg, hkeys⟩ := Keyed.exists_perm_of_keys hp.symm
      have hdOthers : (others.map Record.id).Nodup := hp.nodup_iff.2 distinct
      rw [merge, formerList]
      simp only [heach, ← hkeys, Keyed.pick_keys_of_perm hg hdOthers]
      cases policy with
      | generated =>
          -- then the children became what they became in this order
          have hsame : generated = others := by
            rw [← Keyed.pick_keys_of_perm hg hdOthers, hkeys, ← hgenerated rfl,
              Keyed.pick_keys_of_perm (List.Perm.refl _) hdOthers]
          rw [OrderPolicy.arranged, hsame]
      | preserve =>
          rw [OrderPolicy.arranged, Keyed.arrange_keys_of_perm hg.symm (hkeys ▸ distinct)]

mutual
/-- The number of editable leaves. -/
def editableCount : Record → Nat
  | .literal .. => 0
  | .editable .. => 1
  | .composite _ children => editableCountAll children
  | .region _ _ children => editableCountAll children
termination_by structural record => record

/-- The number of editable leaves of several records. -/
def editableCountAll : List Record → Nat
  | [] => 0
  | record :: rest => editableCount record + editableCountAll rest
termination_by structural records => records
end

theorem editableCountAll_eq_sum (records : List Record) :
    editableCountAll records = (records.map editableCount).sum := by
  induction records with
  | nil => rfl
  | cons record rest ih => rw [editableCountAll, ih, List.map_cons, List.sum_cons]

theorem kind_of_yields {record merged : Record} (h : Yields record merged) :
    record.kind = merged.kind := by
  cases record with
  | literal =>
      cases h
      rfl
  | editable =>
      obtain ⟨_, rfl⟩ := h
      rfl
  | composite | region =>
      obtain ⟨_, rfl, _⟩ := h
      rfl

/-- A list region that met what it became has nothing to count itself. -/
theorem listStats_of_yields {children others : List Record}
    (hp : (others.map Record.id).Perm (children.map Record.id))
    (hy : YieldsEach children others) : listStats children others = 0 := by
  -- every former child is generated again
  have hdropped : others.countP (fun gone => !Keyed.contains Record.id gone.id children) = 0 := by
    rw [List.countP_eq_zero]
    intro gone hg
    have hmem : gone.id ∈ children.map Record.id := hp.subset (List.mem_map_of_mem hg)
    simp [Keyed.contains_iff.2 hmem]
  -- and every child has a former self of its kind
  have hintroduced : children.countP (fun child =>
      !continues child (Keyed.find? Record.id child.id others)) = 0 := by
    rw [List.countP_eq_zero]
    intro child hc
    obtain ⟨other, hf, ho⟩ := yieldsEach_iff.1 hy child hc
    simp [hf, continues, kind_of_yields ho]
  rw [listStats, hdropped, hintroduced]
  rfl

theorem mergeStatsEach_of_yields {children others : List Record}
    (h : ∀ child ∈ children, ∃ other, Keyed.find? Record.id child.id others = some other ∧
      mergeStats child (some other) = ⟨child.editableCount, 0, 0, 0⟩) :
    mergeStatsEach children others = ⟨editableCountAll children, 0, 0, 0⟩ := by
  induction children with
  | nil => rfl
  | cons child rest ih =>
      obtain ⟨other, hf, hs⟩ := h child List.mem_cons_self
      rw [mergeStatsEach, hf, hs, ih fun next hn => h next (List.mem_cons_of_mem _ hn),
        editableCountAll]
      rfl

/-- **Merged with what it became, a record preserves every editable leaf** and counts
nothing else. -/
theorem mergeStats_of_yields {record merged : Record} (hy : Yields record merged) :
    mergeStats record (some merged) = ⟨record.editableCount, 0, 0, 0⟩ := by
  induction record using record_induction generalizing merged with
  | literal =>
      cases hy
      rfl
  | editable =>
      obtain ⟨_, rfl⟩ := hy
      rfl
  | composite id children ih =>
      obtain ⟨others, rfl, -, hy⟩ := hy
      rw [mergeStats, formerChildren, editableCount]
      exact mergeStatsEach_of_yields (hy.exists_of fun child hc _ => ih child hc)
  | region id policy children ih =>
      obtain ⟨others, rfl, hp, -, hy⟩ := hy
      have heach := mergeStatsEach_of_yields (hy.exists_of fun child hc _ => ih child hc)
      rw [mergeStats, formerList, listStats_of_yields hp hy, MergeStats.zero_add, heach,
        editableCount]

end Record

/-! ## Trees -/

namespace Segment

mutual
/-- The number of live editable leaves. -/
def editableCount : Segment → Nat
  | .literal .. => 0
  | .editable .. => 1
  | .composite _ children => editableCountAll children
  | .region ⟨_, _, children⟩ => editableCountAll children
  | .synchronized ⟨_, _, children⟩ _ _ => editableCountAll children
termination_by structural tree => tree

/-- The number of live editable leaves of several trees. -/
def editableCountAll : List Segment → Nat
  | [] => 0
  | child :: rest => editableCount child + editableCountAll rest
termination_by structural trees => trees
end

theorem editableCountAll_eq_sum (trees : List Segment) :
    editableCountAll trees = (trees.map editableCount).sum := by
  induction trees with
  | nil => rfl
  | cons tree rest ih => rw [editableCountAll, ih, List.map_cons, List.sum_cons]

/-- Recorded children have the editable leaves of the children, in any order. -/
theorem editableCountAll_ofSegment {trees : List Segment} {records : List Record}
    (hp : records.Perm (trees.map Record.ofSegment))
    (ih : ∀ tree ∈ trees, (Record.ofSegment tree).editableCount = tree.editableCount) :
    Record.editableCountAll records = editableCountAll trees := by
  rw [Record.editableCountAll_eq_sum, editableCountAll_eq_sum, (hp.map _).sum_nat, List.map_map]
  exact congrArg List.sum (List.map_congr_left ih)

/-- A record has the editable leaves of its tree. -/
theorem editableCount_ofSegment {tree : Segment} (h : tree.WellFormed) :
    (Record.ofSegment tree).editableCount = tree.editableCount := by
  induction h with
  | literal => rfl
  | editable => rfl
  | composite _ _ ih =>
      rw [Record.ofSegment, Record.ofSegments_eq_map]
      exact editableCountAll_ofSegment (List.Perm.refl _) ih
  | region _ _ ih =>
      rw [Record.ofSegment, Record.ofSegments_eq_map]
      exact editableCountAll_ofSegment (List.Perm.refl _) ih
  | @synchronized merged former order distinct each listed history ih _ =>
      have h := WellFormed.synchronized distinct each listed history
      -- the children are recorded in emitted order, which keeps their number
      have hp : (Record.ofSegment (.synchronized merged former order)).children.Perm
          (merged.children.map Record.ofSegment) := by
        rw [Record.children_ofSegment h]
        exact (Keyed.arrange_perm order merged.children).map _
      exact editableCountAll_ofSegment hp ih

/-- **Merging is stable.** The new tree meets its own merge: the merge stays what it
is, every editable leaf is preserved and nothing else is counted. The merge meets the
former tree again: it stays what it is, and the counters are those of the first
merge. A tree meets itself: it stays what it is, and nothing is lost or new. -/
theorem merge_stable {new : Segment} (hnew : new.WellFormed) {before : Option Segment}
    (hb : ∀ old, before = some old → old.WellFormed) :
    (SameEmission (merge new (some (merge new before))) (merge new before) ∧
      mergeStats new (some (merge new before)) = ⟨new.editableCount, 0, 0, 0⟩) ∧
    (SameEmission (merge (merge new before) before) (merge new before) ∧
      mergeStats (merge new before) before = mergeStats new before) ∧
    (SameEmission (merge new (some new)) new ∧
      mergeStats new (some new) = ⟨new.editableCount, 0, 0, 0⟩) := by
  have hmerged : (merge new before).WellFormed := hnew.merge hb
  have hrecord := Record.consistent_ofSegment hnew
  have hyields := hrecord.yields_merge (before.map Record.ofSegment)
  refine ⟨⟨sameEmission_of_record ?_, ?_⟩, ⟨sameEmission_of_record ?_, ?_⟩,
    sameEmission_of_record ?_, ?_⟩
  · -- the new tree meets its own merge
    rw [ofSegment_merge hnew hmerged.of_some_eq, Option.map_some, ofSegment_merge hnew hb]
    exact Record.merge_of_yields hrecord hyields
  · rw [mergeStats_ofSegment hnew hmerged.of_some_eq, Option.map_some, ofSegment_merge hnew hb,
      Record.mergeStats_of_yields hyields, editableCount_ofSegment hnew]
  · -- the merge meets the former tree again
    rw [ofSegment_merge hmerged hb, ofSegment_merge hnew hb, Record.merge_merge]
  · rw [mergeStats_ofSegment hmerged hb, ofSegment_merge hnew hb, Record.mergeStats_merge,
      mergeStats_ofSegment hnew hb]
  · -- the tree meets itself
    rw [ofSegment_merge hnew hnew.of_some_eq]
    exact Record.merge_of_yields hrecord hrecord.yields_self
  · rw [mergeStats_ofSegment hnew hnew.of_some_eq, Option.map_some,
      Record.mergeStats_of_yields hrecord.yields_self, editableCount_ofSegment hnew]

/-- Two rows meet their merge with the merged rows: both bodies are preserved. -/
theorem merge_stable_rows :
    WellFormed Sample.twoRows ∧
    (∀ old, some Sample.mergedRows = some old → WellFormed old) ∧
    SameEmission
      (merge Sample.twoRows (some (merge Sample.twoRows (some Sample.mergedRows))))
      (merge Sample.twoRows (some Sample.mergedRows)) ∧
    mergeStats Sample.twoRows (some (merge Sample.twoRows (some Sample.mergedRows)))
      = ⟨2, 0, 0, 0⟩ := by
  have hnew : WellFormed Sample.twoRows := by decide
  have hold : WellFormed Sample.mergedRows := by decide
  have hb := hold.of_some_eq
  obtain ⟨⟨hsame, hstats⟩, -, -⟩ := merge_stable hnew hb
  exact ⟨hnew, hb, hsame, hstats⟩

end Segment

end Regeneration
