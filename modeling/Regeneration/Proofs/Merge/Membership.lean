import Regeneration.Proofs.Merge.Emission

/-!
# What a merge has

The new tree alone decides which segments a merge has. Every live place of the new tree
is one of the merge, with its id and its policy, and there are no others; the kind is
the same as well, but that every list region is a merged one. So the record of a merge
has the ids of the new tree's record, and an id that only the former tree knows is
neither recorded nor rendered.

The merged children of a segment are appended one by one, and one whose id is taken is
left out (`gather`). Merging keeps ids, so none ever is.

Main statement: `membership_merge`.
-/

set_option autoImplicit false

namespace Regeneration

/-- The kind after a merge: list regions become merged ones. -/
def SegmentKind.merged : SegmentKind → SegmentKind
  | .region => .synchronized
  | kind => kind

namespace Children

/-! ## Appending with refusals left out -/

/-- The segments appended one by one to a list, but for those that are refused, and the
refusals. -/
def gather (parent : String) : Children → List Segment → Children × List SegmentError
  | children, [] => (children, [])
  | children, child :: rest =>
    match push parent children child with
    | .ok extended => gather parent extended rest
    | .error error =>
      let gathered := gather parent children rest
      (gathered.1, error :: gathered.2)

theorem gather_append_fst (parent : String) (children : Children) (segments : List Segment) :
    (gather parent children segments).1
      = children ++ (Keyed.keepFirst Segment.id segments).filter fun child =>
          !children.contains child.id := by
  induction segments generalizing children with
  | nil => rw [gather, Keyed.keepFirst, List.filter_nil, List.append_nil]
  | cons child rest ih =>
      by_cases hm : child.id ∈ children.ids
      · -- refused: the id is taken, and so it is for every later segment that has it
        have hpush : push parent children child = .error (.duplicateChild parent child.id) := by
          rw [push, if_pos (contains_iff.2 hm)]
        rw [gather, hpush, Keyed.keepFirst, List.filter_cons_of_neg, List.filter_filter]
        · simp only [ih]
          congr 1
          apply List.filter_congr
          intro other _
          by_cases hid : other.id = child.id
          · simp [hid, contains_iff.2 hm]
          · simp [hid]
        · simp [contains_iff.2 hm]
      · have hpush : push parent children child = .ok (children ++ [child]) :=
          push_eq_ok_iff.2 ⟨hm, rfl⟩
        have hfree : children.contains child.id = false := by
          rw [Bool.eq_false_iff]
          exact mt contains_iff.1 hm
        rw [gather, hpush, Keyed.keepFirst, List.filter_cons_of_pos (by rw [hfree]; rfl),
          List.filter_filter]
        simp only [ih, List.append_assoc, List.singleton_append]
        congr 2
        apply List.filter_congr
        intro other _
        simp [contains, Keyed.contains, bne, Bool.beq_comm]

/-- **Leaving refused segments out** is keeping the first of each id. -/
theorem gather_fst (parent : String) (segments : List Segment) :
    (gather parent [] segments).1 = Keyed.keepFirst Segment.id segments := by
  rw [gather_append_fst, List.nil_append, List.filter_eq_self]
  intro child _
  rfl

/-- Nothing is refused when every segment can be appended. -/
theorem gather_of_pushAll {parent : String} {children segments extended : List Segment}
    (h : pushAll parent children segments = .ok extended) :
    gather parent children segments = (extended, []) := by
  induction segments generalizing children with
  | nil =>
      cases h
      rfl
  | cons child rest ih =>
      rw [pushAll] at h
      split at h
      · next pushed hp =>
          rw [gather, hp]
          exact ih h
      · cases h

end Children

/-! ## The ids of the record -/

namespace Record

theorem ids_preorder_mergeEach {children : List Record} (former : List Record)
    (ih : ∀ child ∈ children, ∀ before,
      ((merge child before).preorder.map Record.id).Perm (child.preorder.map Record.id)) :
    (((mergeEach children former).flatMap preorder).map Record.id).Perm
      ((children.flatMap preorder).map Record.id) := by
  induction children with
  | nil => exact List.Perm.refl _
  | cons child rest ihRest =>
      have hrest := ihRest fun other hm => ih other (List.mem_cons_of_mem child hm)
      rw [mergeEach, List.flatMap_cons, List.flatMap_cons, List.map_append, List.map_append]
      exact (ih child List.mem_cons_self _).append hrest

/-- **The record of a merge has the ids of the new record**, each as often. -/
theorem ids_preorder_merge (record : Record) (before : Option Record) :
    ((merge record before).preorder.map Record.id).Perm (record.preorder.map Record.id) := by
  induction record using record_induction generalizing before with
  | literal => exact List.Perm.refl _
  | editable id content =>
      cases before with
      | none => exact List.Perm.refl _
      | some former => cases former <;> exact List.Perm.refl _
  | composite id children ih =>
      rw [merge, preorder_eq, preorder_eq, List.map_cons, List.map_cons]
      exact (ids_preorder_mergeEach _ ih).cons id
  | region id policy children ih =>
      -- the children may have moved, and their records with them
      have harranged : (policy.arranged Record.id ((formerList before).map Record.id)
          (mergeEach children (formerList before))).Perm
            (mergeEach children (formerList before)) :=
        OrderPolicy.arranged_perm policy _ _
      have hmoved := (harranged.flatMap_right preorder).map Record.id
      rw [merge, preorder_eq, preorder_eq, List.map_cons, List.map_cons]
      exact (hmoved.trans (ids_preorder_mergeEach _ ih)).cons id

end Record

namespace Segment

/-! ## The children of a merged segment -/

/-- The former children that a segment's children are merged with: those of a list
region in emitted order, those of a composite as they are. -/
def formerOf (place : Segment) (before : Option Segment) : Children :=
  if place.kind.isList then formerList (before.bind asRegion?) else formerChildren before

theorem kind_merge (new : Segment) (before : Option Segment) :
    (merge new before).kind = new.kind.merged := by
  cases new with
  | editable id content =>
      cases before with
      | none => rfl
      | some old => cases old <;> rfl
  | literal | composite | region | synchronized => rfl

/-- The children of a merge are the new children, as emitted, each merged, without those
whose id is taken. -/
theorem children_merge (new : Segment) (before : Option Segment) :
    (merge new before).children
      = Keyed.keepFirst Segment.id (mergeEach new.emittedChildren (formerOf new before)) := by
  cases new with
  | editable id content =>
      cases before with
      | none => rfl
      | some old => cases old <;> rfl
  | literal | composite | region => rfl
  | synchronized merged past order =>
      rw [merge_flatten]
      rfl

/-- **No merged child is left out.** -/
theorem gather_mergeEach {new : Segment} (h : new.WellFormed) (before : Option Segment) :
    Children.gather new.id [] (mergeEach new.emittedChildren (formerOf new before))
      = ((merge new before).children, []) := by
  have hd := distinct_mergeEach (Record.distinct_emittedChildren h) (formerOf new before)
  have hgather := Children.gather_of_pushAll (ofList_of_distinct new.id hd)
  rw [children_merge, ← Children.gather_fst new.id, hgather]

/-- **The new tree alone decides shape and membership.** The live places of a merge are
those of the new tree. At each of them the merge has the new id and the new policy, and
the new kind but that every list region is a merged one; the merged children have the ids
that the new tree emits, and appending them one by one refuses none. So a merge has as
many segments as the new tree. Its record has the places of the new tree and their ids,
each as often, and its text is that of the record's leaves. -/
theorem membership_merge {new : Segment} (hnew : new.WellFormed) {before : Option Segment}
    (hb : ∀ old, before = some old → old.WellFormed) :
    (∀ ids, (merge new before).live? ids = none ↔ new.live? ids = none) ∧
    (∀ ids place, new.live? ids = some place →
      ∃ merged, (merge new before).live? ids = some merged ∧
        merged.id = place.id ∧ merged.policy? = place.policy? ∧
        merged.kind = place.kind.merged ∧
        Children.ids merged.children = Children.ids place.emittedChildren ∧
        Children.gather place.id []
            (mergeEach place.emittedChildren (formerOf place (inheritedAt new before ids)))
          = (merged.children, [])) ∧
    (merge new before).nodeCount = new.nodeCount ∧
    (∀ ids, ((Record.ofSegment (merge new before)).at? ids).isSome = (new.live? ids).isSome) ∧
    ((Record.ofSegment (merge new before)).preorder.map Record.id).Perm
      ((Record.ofSegment new).preorder.map Record.id) ∧
    (merge new before).render
      = String.join (Record.ofSegment (merge new before)).leafContents := by
  have hmerged : (merge new before).WellFormed := hnew.merge hb
  have hids : ((Record.ofSegment (merge new before)).preorder.map Record.id).Perm
      ((Record.ofSegment new).preorder.map Record.id) := by
    rw [ofSegment_merge hnew hb]
    exact Record.ids_preorder_merge _ _
  refine ⟨?_, ?_, ?_, ?_, hids, ?_⟩
  · intro ids
    rw [live?_merge, Option.map_eq_none_iff]
  · intro ids place hlive
    refine ⟨merge place (inheritedAt new before ids), ?_, id_merge place _, policy?_merge place _,
      kind_merge place _, ?_, gather_mergeEach (hnew.live hlive) _⟩
    · rw [live?_merge, hlive, Option.map_some]
    · rw [children_merge,
        keepFirst_mergeEach (Record.distinct_emittedChildren (hnew.live hlive)), map_id_mergeEach]
  · have hlength := hids.length_eq
    rw [List.length_map, List.length_map] at hlength
    rw [nodeCount_eq_length hmerged, nodeCount_eq_length hnew, hlength]
  · intro ids
    rw [Record.at?_ofSegment hmerged, live?_merge, Option.isSome_map, Option.isSome_map]
  · rw [← Record.leafText_ofSegment, Record.leafText_eq_join]

/-- Two rows merged with the merged rows: the region is a merged one with rows `a` and `b`,
neither of which is refused, and row `c`, which only the tree held has, is not recorded. -/
theorem membership_merge_rows :
    WellFormed Sample.twoRows ∧ (∀ old, some Sample.mergedRows = some old → WellFormed old) ∧
    (∃ merged, (merge Sample.twoRows (some Sample.mergedRows)).live? ["rows"] = some merged ∧
      merged.kind = .synchronized ∧ Children.ids merged.children = ["a", "b"]) ∧
    (merge Sample.twoRows (some Sample.mergedRows)).live? ["rows", "c"] = none ∧
    (merge Sample.twoRows (some Sample.mergedRows)).nodeCount = 9 ∧
    ((Record.ofSegment (merge Sample.twoRows (some Sample.mergedRows))).preorder.map
      Record.id).Perm ["file", "header", "rows", "a", "signature", "body", "b", "signature",
        "body"] := by
  have hnew : WellFormed Sample.twoRows := by decide
  have hold : WellFormed Sample.mergedRows := by decide
  have hb := hold.of_some_eq
  obtain ⟨hnone, hplaces, hcount, -, hids, -⟩ := membership_merge hnew hb
  obtain ⟨merged, hlive, -, -, hkind, hchildren, -⟩ := hplaces ["rows"] _ rfl
  exact ⟨hnew, hb, ⟨merged, hlive, hkind, hchildren⟩, (hnone ["rows", "c"]).2 rfl, hcount, hids⟩

end Segment

end Regeneration
