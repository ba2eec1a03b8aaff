import Mathlib.Algebra.GroupWithZero.Nat
import Regeneration.Segment.Sample
import Regeneration.Proofs.Outcome
import Regeneration.Proofs.Record.Tree
import Regeneration.Proofs.Segment.Built

/-!
# Text and record agree

The text of a tree, the order of its children and the number of its segments are each
computed on the tree itself, along ways of their own through merged regions. The record is
the one account of all of them: the text is that of the record's leaves, the children come
in the order recorded, and every segment is recorded once. And the record says enough to
rebuild the tree, with merged regions as plain ones.

Main statement: `text_and_record_agree`.
-/

set_option autoImplicit false

namespace Regeneration

namespace Record

/-! ## The records of a record, depth first -/

mutual
/-- A record and all records below it, depth first. -/
def preorder : Record → List Record
  | .literal id content => [.literal id content]
  | .editable id content => [.editable id content]
  | .composite id children => .composite id children :: preorderAll children
  | .region id policy children => .region id policy children :: preorderAll children
termination_by structural record => record

/-- The records of several records, one after another. -/
def preorderAll : List Record → List Record
  | [] => []
  | record :: rest => preorder record ++ preorderAll rest
termination_by structural records => records
end

/-- The content of a leaf. -/
def content? : Record → Option String
  | .literal _ content => some content
  | .editable _ content => some content
  | _ => none

/-- The contents of the leaves, depth first. -/
def leafContents (record : Record) : List String := record.preorder.filterMap content?

theorem preorderAll_eq_flatMap (records : List Record) :
    preorderAll records = records.flatMap preorder := by
  induction records with
  | nil => rfl
  | cons record rest ih => rw [preorderAll, ih, List.flatMap_cons]

theorem preorder_eq (record : Record) :
    record.preorder = record :: record.children.flatMap preorder := by
  cases record with
  | literal | editable => rfl
  | composite | region =>
      rw [preorder, preorderAll_eq_flatMap]
      rfl

/-- Induction over records with a hypothesis for every child, whatever the kind. -/
theorem children_induction {motive : Record → Prop}
    (step : ∀ record, (∀ child ∈ record.children, motive child) → motive record)
    (record : Record) : motive record := by
  induction record using record_induction with
  | literal id content => exact step _ fun _ hm => nomatch hm
  | editable id content => exact step _ fun _ hm => nomatch hm
  | composite id children ih => exact step _ ih
  | region id policy children ih => exact step _ ih

theorem join_flatMap {α : Type} (f : α → List String) (items : List α) :
    String.join (items.flatMap f) = String.join (items.map fun item => String.join (f item)) := by
  induction items with
  | nil => rfl
  | cons item rest ih =>
      rw [List.flatMap_cons, String.join_append, List.map_cons, String.join_cons, ih]

/-- **The text of a record is that of its leaves, depth first.** -/
theorem leafText_eq_join (record : Record) : record.leafText = String.join record.leafContents := by
  induction record using children_induction with
  | step record ih =>
      -- a leaf is all there is of it; a container has no content but that of its children
      rw [leafContents, preorder_eq]
      cases record with
      | literal id content | editable id content => simp [content?, children, leafText]
      | composite _ children | region _ _ children =>
          have hbelow : children.map leafText
              = children.map fun child => String.join child.leafContents := List.map_congr_left ih
          rw [leafText, leafTexts_eq_map, hbelow, List.filterMap_cons_none rfl,
            List.filterMap_flatMap, join_flatMap]
          rfl

end Record

namespace Segment

open Record

/-! ## The parts of a tree -/

/-- Trees without merged regions. -/
inductive Plain : Segment → Prop where
  | literal (id content : String) : Plain (.literal id content)
  | editable (id content : String) : Plain (.editable id content)
  | composite {id : String} {children : List Segment}
      (each : ∀ child ∈ children, Plain child) : Plain (.composite id children)
  | region {list : Region Segment} (each : ∀ child ∈ list.children, Plain child) :
      Plain (.region list)

/-- Induction over trees with a hypothesis for every child, whatever the kind. -/
theorem children_induction {motive : Segment → Prop}
    (step : ∀ tree, (∀ child ∈ tree.children, motive child) → motive tree)
    (tree : Segment) : motive tree := by
  induction tree using tree_induction with
  | literal id content => exact step _ fun _ hm => nomatch hm
  | editable id content => exact step _ fun _ hm => nomatch hm
  | composite id children ih => exact step _ ih
  | region list ih => exact step _ ih
  | synchronized merged former order ih _ => exact step _ ih

theorem nodeCountAll_eq_sum (trees : List Segment) :
    nodeCountAll trees = (trees.map nodeCount).sum := by
  induction trees with
  | nil => rfl
  | cons tree rest ih => rw [nodeCountAll, ih, List.map_cons, List.sum_cons]

theorem nodeCount_eq (tree : Segment) : tree.nodeCount = 1 + (tree.children.map nodeCount).sum := by
  cases tree with
  | literal | editable => rfl
  | composite | region | synchronized => rw [nodeCount, nodeCountAll_eq_sum, Segment.children]

theorem emittedChildren_perm (tree : Segment) : tree.emittedChildren.Perm tree.children := by
  cases tree with
  | synchronized merged _ order => exact Keyed.arrange_perm order merged.children
  | literal | editable | composite | region => exact .refl _

/-- **Every segment is recorded once.** -/
theorem nodeCount_eq_length {tree : Segment} (h : tree.WellFormed) :
    tree.nodeCount = (ofSegment tree).preorder.length := by
  induction tree using children_induction with
  | step tree ih =>
      have hcounts : tree.children.map nodeCount
          = tree.children.map fun child => (ofSegment child).preorder.length := by
        apply List.map_congr_left
        intro child hm
        exact ih child hm (h.each hm)
      -- emitted children are recorded, and they are the children in some order
      have hemitted := (tree.emittedChildren_perm.map fun child =>
        (ofSegment child).preorder.length).sum_nat
      rw [nodeCount_eq, hcounts, preorder_eq, List.length_cons, List.length_flatMap,
        children_ofSegment h, List.map_map, Nat.add_comm, ← hemitted]
      rfl

/-- The ids of the emitted children, in order. -/
theorem childOrder_eq {tree : Segment} (h : tree.WellFormed) :
    tree.childOrder = tree.emittedChildren.map Segment.id := by
  cases h with
  | literal | editable | composite | region => rfl
  | @synchronized merged _ order distinct _ listed _ =>
      -- the order lists every child once, so it is what arranging by it gives
      obtain ⟨arranged, hperm, hids⟩ := Keyed.exists_perm_of_keys listed
      have harranged := Keyed.arrange_keys_of_perm hperm distinct
      rw [hids] at harranged
      rw [childOrder, emittedChildren, flatten, Children.arrange, harranged, hids]

/-- **Children come in the order recorded**, at every live place. -/
theorem childOrder_of_live {tree place : Segment} {ids : List String} (h : tree.WellFormed)
    (hlive : tree.live? ids = some place) :
    ∃ record, (ofSegment tree).at? ids = some record ∧
      place.childOrder = record.children.map Record.id := by
  have hplace : place.WellFormed := h.find? (find?_of_live? hlive)
  refine ⟨ofSegment place, ?_, ?_⟩
  · rw [at?_ofSegment h, hlive, Option.map_some]
  · rw [childOrder_eq hplace, children_ofSegment hplace, ids_ofSegment]
    rfl

end Segment

/-! ## Rebuilding -/

namespace Record

theorem toSegments_eq_mapM (records : List Record) :
    toSegments records = records.mapM toSegment := by
  induction records with
  | nil => rfl
  | cons record rest ih =>
      rw [toSegments, List.mapM_cons, ← ih]
      cases record.toSegment with
      | error => rfl
      | ok tree => cases toSegments rest <;> rfl

/-- Every rebuilt tree was rebuilt from a record. -/
theorem mem_of_toSegments {records : List Record} {trees : List Segment}
    (h : toSegments records = .ok trees) :
    ∀ tree ∈ trees, ∃ record ∈ records, record.toSegment = .ok tree := by
  rw [toSegments_eq_mapM] at h
  exact Outcome.mem_of_mapM h

/-- A rebuilt tree has no merged regions. -/
theorem plain_of_toSegment {record : Record} {tree : Segment}
    (h : record.toSegment = .ok tree) : tree.Plain := by
  induction record using record_induction generalizing tree with
  | literal id content =>
      cases h
      exact .literal id content
  | editable id content =>
      cases h
      exact .editable id content
  | composite id records ih =>
      obtain ⟨trees, ht, -, rfl⟩ := toSegment_composite_eq_ok h
      apply Segment.Plain.composite
      intro child hm
      obtain ⟨record, hr, hchild⟩ := mem_of_toSegments ht child hm
      exact ih record hr hchild
  | region id policy records ih =>
      obtain ⟨trees, ht, -, rfl⟩ := toSegment_region_eq_ok h
      apply Segment.Plain.region
      intro child hm
      obtain ⟨record, hr, hchild⟩ := mem_of_toSegments ht child hm
      exact ih record hr hchild

theorem toSegments_ofSegments {trees : List Segment}
    (h : ∀ tree ∈ trees, (ofSegment tree).toSegment = .ok tree) :
    toSegments (ofSegments trees) = .ok trees := by
  induction trees with
  | nil => rfl
  | cons tree rest ih =>
      have hrest := ih fun other hm => h other (List.mem_cons_of_mem tree hm)
      rw [ofSegments, toSegments, h tree List.mem_cons_self, hrest]

/-- **A tree without merged regions is rebuilt as it is.** -/
theorem toSegment_ofSegment {tree : Segment} (h : tree.WellFormed) (hplain : tree.Plain) :
    (ofSegment tree).toSegment = .ok tree := by
  induction hplain with
  | literal | editable => rfl
  | @composite id children _ ih =>
      have heach := toSegments_ofSegments fun child hm => ih child hm (h.each hm)
      have hlist : Children.ofList id children = .ok children :=
        Segment.ofList_of_distinct id h.distinct
      simp only [ofSegment, toSegment, heach, hlist]
  | @region list _ ih =>
      have heach := toSegments_ofSegments fun child hm => ih child hm (h.each hm)
      have hlist : Children.ofList list.id list.children = .ok list.children :=
        Segment.ofList_of_distinct list.id h.distinct
      simp only [ofSegment, toSegment, heach, hlist]

end Record

open Record in
/-- **Text and record never disagree.** Of every tree that can be built, with merged regions
at any depth, the text is that of the leaves of its record, depth first; at every live place
the children come in the order recorded there; and the record has a record for each of the
tree's segments. The tree is rebuilt from its record without merged regions, with the same
record and the same text, and as it was if it had none to begin with. In the other
direction, a tree that was rebuilt from a record has that record. -/
theorem Segment.text_and_record_agree :
    (∀ tree : Segment, tree.Built →
      tree.render = String.join (ofSegment tree).leafContents ∧
      (∀ ids place, tree.live? ids = some place →
        ∃ record, (ofSegment tree).at? ids = some record ∧
          place.childOrder = record.children.map Record.id) ∧
      tree.nodeCount = (ofSegment tree).preorder.length ∧
      ∃ rebuilt, (ofSegment tree).toSegment = .ok rebuilt ∧ rebuilt.Plain ∧
        ofSegment rebuilt = ofSegment tree ∧ rebuilt.render = tree.render ∧
        (tree.Plain → rebuilt = tree)) ∧
    ∀ (record : Record) (tree : Segment), record.toSegment = .ok tree →
      ofSegment tree = record := by
  constructor
  · intro tree hbuilt
    -- what was built is well formed, and that is all that is needed of it
    have h := hbuilt.wellFormed
    have htext : tree.render = String.join (ofSegment tree).leafContents := by
      rw [← leafText_ofSegment, leafText_eq_join]
    obtain ⟨rebuilt, hrebuilt, hrecord, -⟩ := exists_reload h
    have hsame : rebuilt.render = tree.render := by
      rw [← leafText_ofSegment, hrecord, leafText_ofSegment]
    refine ⟨htext, ?_, nodeCount_eq_length h, rebuilt, hrebuilt, plain_of_toSegment hrebuilt,
      hrecord, hsame, ?_⟩
    · intro ids place hlive
      exact childOrder_of_live h hlive
    · intro hplain
      rw [toSegment_ofSegment h hplain] at hrebuilt
      exact (Except.ok.inj hrebuilt).symm
  · intro record tree h
    exact (toSegment_eq_ok h).1

open Record Sample in
/-- A file with a merged region, whose kept row comes before the new one: its text, its child
order and its count of segments are those of its record, and it is rebuilt with a plain region
in this order. The file as generated is rebuilt as it is. -/
theorem Segment.text_and_record_agree_rows :
    mergedRows.Built ∧ mergedRows.render = "rows\na: minec: c0" ∧
    (ofSegment mergedRows).leafContents = ["rows\n", "a: ", "mine", "c: ", "c0"] ∧
    (∃ record, (ofSegment mergedRows).at? ["rows"] = some record ∧
      record.children.map Record.id = ["a", "c"]) ∧
    mergedRows.nodeCount = 9 ∧ (ofSegment mergedRows).preorder.length = 9 ∧
    (∃ rebuilt, (ofSegment mergedRows).toSegment = .ok rebuilt ∧ rebuilt.Plain ∧
      rebuilt.render = "rows\na: minec: c0") ∧
    twoRows.Plain ∧ (ofSegment twoRows).toSegment = .ok twoRows := by
  have hbuilt : mergedRows.Built := built_iff.2 (by decide)
  have hgenerated : twoRows.Built := built_iff.2 (by decide)
  have hplain : twoRows.Plain := by
    have hreload : (ofSegment twoRows).toSegment = .ok twoRows := rfl
    exact plain_of_toSegment hreload
  obtain ⟨htext, horder, hcount, rebuilt, hrebuilt, hnone, -, hsame, -⟩ :=
    text_and_record_agree.1 mergedRows hbuilt
  obtain ⟨-, -, -, again, hagain, -, -, -, hidentical⟩ :=
    text_and_record_agree.1 twoRows hgenerated
  have hleaves : (ofSegment mergedRows).leafContents = ["rows\n", "a: ", "mine", "c: ", "c0"] :=
    rfl
  have hrender : mergedRows.render = "rows\na: minec: c0" := by
    rw [htext, hleaves]
    decide
  obtain ⟨record, hrecord, hchildren⟩ := horder ["rows"] _ rfl
  refine ⟨hbuilt, hrender, hleaves, ⟨record, hrecord, hchildren.symm⟩, rfl, hcount.symm,
    ⟨rebuilt, hrebuilt, hnone, hsame.trans hrender⟩, hplain, ?_⟩
  rw [hidentical hplain] at hagain
  exact hagain

end Regeneration
