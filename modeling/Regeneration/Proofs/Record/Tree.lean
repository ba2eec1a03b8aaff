import Regeneration.Segment.Record
import Regeneration.Segment.Rendering
import Regeneration.Proofs.Segment.WellFormed

/-!
# Records as views of trees

A record shows of a tree what is emitted: its live segments in emitted order. The
text of a tree is the text of its record, a live place is a place of the record,
and the tree rebuilt from the record has that record again.

Main statements: `leafText_ofSegment`, `at?_ofSegment` and `exists_reload` (every
well-formed tree reloads, to a well-formed tree of the same record).
-/

set_option autoImplicit false

namespace Regeneration

/-- The children that a segment emits, in emitted order. -/
def Segment.emittedChildren : Segment → List Segment
  | .literal .. | .editable .. => []
  | .composite _ children => children
  | .region list => list.children
  | .synchronized merged _ order => (flatten merged order).children

namespace Record

/-- Induction over records with a hypothesis for every child. -/
theorem record_induction {motive : Record → Prop}
    (literal : ∀ id content, motive (.literal id content))
    (editable : ∀ id content, motive (.editable id content))
    (composite : ∀ id children, (∀ child ∈ children, motive child) →
      motive (.composite id children))
    (region : ∀ id policy children, (∀ child ∈ children, motive child) →
      motive (.region id policy children))
    (record : Record) : motive record :=
  Record.rec (motive_1 := motive) (motive_2 := fun children => ∀ child ∈ children, motive child)
    literal editable composite region
    (fun _ h => nomatch h)
    (fun _ _ head tail child h => (List.mem_cons.1 h).elim (fun e => e ▸ head) (tail child))
    record

/-- The recorded children. -/
def children : Record → List Record
  | .literal .. | .editable .. => []
  | .composite _ children => children
  | .region _ _ children => children

/-- The kind of the described segment; merged regions are described as plain
ones. -/
def kind : Record → SegmentKind
  | .literal .. => .literal
  | .editable .. => .editable
  | .composite .. => .composite
  | .region .. => .region

mutual
/-- The contents of the leaves one after another. -/
def leafText : Record → String
  | .literal _ content => content
  | .editable _ content => content
  | .composite _ children => String.join (leafTexts children)
  | .region _ _ children => String.join (leafTexts children)
termination_by structural record => record

/-- The texts of several records. -/
def leafTexts : List Record → List String
  | [] => []
  | record :: rest => leafText record :: leafTexts rest
termination_by structural records => records
end

@[simp] theorem leafTexts_eq_map (records : List Record) :
    leafTexts records = records.map leafText := by
  induction records with
  | nil => rfl
  | cons record rest ih => rw [leafTexts, ih, List.map_cons]

/-- The record at a place. -/
def at? (record : Record) : List String → Option Record
  | [] => some record
  | id :: ids => (Keyed.find? Record.id id record.children).bind fun child => child.at? ids

/-- Distinct ids among recorded siblings, at every level. -/
inductive Consistent : Record → Prop where
  | literal (id content : String) : Consistent (.literal id content)
  | editable (id content : String) : Consistent (.editable id content)
  | composite {id : String} {children : List Record}
      (distinct : (children.map Record.id).Nodup)
      (each : ∀ child ∈ children, Consistent child) : Consistent (.composite id children)
  | region {id : String} {policy : OrderPolicy} {children : List Record}
      (distinct : (children.map Record.id).Nodup)
      (each : ∀ child ∈ children, Consistent child) : Consistent (.region id policy children)

/-! ## The record of a tree -/

theorem ids_ofSegment (trees : List Segment) :
    (trees.map ofSegment).map Record.id = Children.ids trees := by
  simp only [List.map_map, Function.comp_def, id_ofSegment, Children.ids]

theorem children_ofSegment {tree : Segment} (h : tree.WellFormed) :
    (ofSegment tree).children = tree.emittedChildren.map ofSegment := by
  cases h with
  | literal => rfl
  | editable => rfl
  | composite => simp only [ofSegment, children, ofSegments_eq_map, Segment.emittedChildren]
  | region => simp only [ofSegment, children, ofSegments_eq_map, Segment.emittedChildren]
  | @synchronized merged former order distinct _ listed _ =>
      -- the order lists every child once, so choosing by it is arranging by it
      rw [ofSegment, children, ofSegments_eq_map, Keyed.pick_map id_ofSegment,
        Keyed.pick_eq_arrange listed distinct]
      rfl

/-- The record of a merged region is that of the plain region it flattens to. -/
theorem ofSegment_flatten {merged : Region Segment} {former : Option (Region Segment)}
    {order : List String} (h : (Segment.synchronized merged former order).WellFormed) :
    ofSegment (.region (Segment.flatten merged order))
      = ofSegment (.synchronized merged former order) := by
  have hc : Keyed.pick Record.id order (ofSegments merged.children)
      = (Segment.flatten merged order).children.map ofSegment := children_ofSegment h
  rw [ofSegment, ofSegment, hc, ofSegments_eq_map]
  rfl

/-- **The text of a tree is the text of its record.** -/
theorem leafText_ofSegment (tree : Segment) : (ofSegment tree).leafText = tree.render := by
  induction tree using Segment.tree_induction with
  | literal => rfl
  | editable => rfl
  | composite id children ih =>
      rw [Segment.render_composite, ofSegment, leafText]
      simp only [leafTexts_eq_map, ofSegments_eq_map, List.map_map, Function.comp_def,
        List.map_congr_left ih]
  | region list ih =>
      rw [Segment.render_region, ofSegment, leafText]
      simp only [leafTexts_eq_map, ofSegments_eq_map, List.map_map, Function.comp_def,
        List.map_congr_left ih]
  | synchronized merged former order ih _ =>
      -- only chosen children are recorded, and they are children
      have hpick : ∀ child ∈ Keyed.pick Segment.id order merged.children,
          (ofSegment child).leafText = child.render := by
        intro child hc
        obtain ⟨id, _, hf⟩ := List.mem_filterMap.1 hc
        exact ih child (Keyed.mem_of_find? hf)
      rw [Segment.render_synchronized, ofSegment, leafText]
      simp only [leafTexts_eq_map, ofSegments_eq_map, Keyed.pick_map id_ofSegment, List.map_map,
        Function.comp_def, List.map_congr_left hpick]

theorem find?_emittedChildren (tree : Segment) (id : String) :
    Keyed.find? Segment.id id tree.emittedChildren = tree.liveChild? id := by
  cases tree with
  | synchronized merged _ order => exact Keyed.find?_arrange order id merged.children
  | literal | editable | composite | region => rfl

/-- **A live place is a place of the record.** -/
theorem at?_ofSegment {tree : Segment} (h : tree.WellFormed) (ids : List String) :
    (ofSegment tree).at? ids = (tree.live? ids).map ofSegment := by
  induction ids generalizing tree with
  | nil => rfl
  | cons id ids ih =>
      rw [at?, Segment.live?, children_ofSegment h, Keyed.find?_map id_ofSegment,
        find?_emittedChildren]
      cases hc : tree.liveChild? id with
      | none => rfl
      | some child => exact ih (h.liveChild hc)

theorem mem_emittedChildren {tree child : Segment} :
    child ∈ tree.emittedChildren ↔ child ∈ tree.children := by
  cases tree with
  | synchronized merged _ order => exact (Keyed.arrange_perm order merged.children).mem_iff
  | literal | editable | composite | region => exact Iff.rfl

theorem distinct_emittedChildren {tree : Segment} (h : tree.WellFormed) :
    Children.Distinct tree.emittedChildren := by
  cases h with
  | literal => exact List.nodup_nil
  | editable => exact List.nodup_nil
  | composite distinct => exact distinct
  | region distinct => exact distinct
  | synchronized distinct => exact Keyed.nodup_arrange distinct _

/-- The record of a well-formed tree is consistent if its children's records are. -/
theorem consistent_of_children {tree : Segment} (h : tree.WellFormed)
    (he : ∀ child ∈ tree.children, (ofSegment child).Consistent) :
    (ofSegment tree).Consistent := by
  have hd : ((ofSegment tree).children.map Record.id).Nodup := by
    rw [children_ofSegment h, ids_ofSegment]
    exact distinct_emittedChildren h
  -- the recorded children are the children, in emitted order
  have hc : ∀ record ∈ (ofSegment tree).children, record.Consistent := by
    intro record hr
    rw [children_ofSegment h] at hr
    obtain ⟨child, hm, rfl⟩ := List.mem_map.1 hr
    exact he child (mem_emittedChildren.1 hm)
  cases tree with
  | literal id content => exact .literal id content
  | editable id content => exact .editable id content
  | composite => exact .composite hd hc
  | region => exact .region hd hc
  | synchronized => exact .region hd hc

theorem consistent_ofSegment {tree : Segment} (h : tree.WellFormed) :
    (ofSegment tree).Consistent := by
  induction h with
  | literal id content => exact .literal id content
  | editable id content => exact .editable id content
  | composite distinct each ih => exact consistent_of_children (.composite distinct each) ih
  | region distinct each ih => exact consistent_of_children (.region distinct each) ih
  | synchronized distinct each listed history ih _ =>
      exact consistent_of_children (.synchronized distinct each listed history) ih

/-! ## Rebuilding -/

/-- What rebuilt several trees rebuilt each of them. -/
theorem toSegments_eq_ok {records : List Record} {trees : List Segment}
    (h : toSegments records = .ok trees)
    (each : ∀ record ∈ records, ∀ tree, record.toSegment = .ok tree →
      ofSegment tree = record ∧ tree.WellFormed) :
    trees.map ofSegment = records ∧ ∀ tree ∈ trees, tree.WellFormed := by
  induction records generalizing trees with
  | nil =>
      cases h
      exact ⟨rfl, fun _ hm => nomatch hm⟩
  | cons record rest ih =>
      rw [toSegments] at h
      split at h
      · cases h
      · next tree ht =>
          split at h
          · cases h
          · next others ho =>
              cases h
              obtain ⟨hrecord, hwell⟩ := each record List.mem_cons_self tree ht
              have heach : ∀ record ∈ rest, ∀ tree, record.toSegment = .ok tree →
                  ofSegment tree = record ∧ tree.WellFormed := by
                intro other hm
                exact each other (List.mem_cons_of_mem record hm)
              obtain ⟨hrecords, hwells⟩ := ih ho heach
              constructor
              · rw [List.map_cons, hrecord, hrecords]
              · intro other hm
                rcases List.mem_cons.1 hm with rfl | hm
                · exact hwell
                · exact hwells other hm

/-- A container is rebuilt from the trees of its children, which are accepted as a child
list. -/
theorem toSegment_composite_eq_ok {id : String} {records : List Record} {tree : Segment}
    (h : (composite id records).toSegment = .ok tree) :
    ∃ trees, toSegments records = .ok trees ∧ Children.Distinct trees ∧
      tree = .composite id trees := by
  rw [toSegment] at h
  split at h
  · cases h
  · next trees ht =>
      split at h
      · cases h
      · next children hc =>
          cases h
          obtain ⟨rfl, hd⟩ := Segment.ofList_eq_ok hc
          exact ⟨children, ht, hd, rfl⟩

theorem toSegment_region_eq_ok {id : String} {policy : OrderPolicy} {records : List Record}
    {tree : Segment} (h : (region id policy records).toSegment = .ok tree) :
    ∃ trees, toSegments records = .ok trees ∧ Children.Distinct trees ∧
      tree = .region ⟨id, policy, trees⟩ := by
  rw [toSegment] at h
  split at h
  · cases h
  · next trees ht =>
      split at h
      · cases h
      · next children hc =>
          cases h
          obtain ⟨rfl, hd⟩ := Segment.ofList_eq_ok hc
          exact ⟨children, ht, hd, rfl⟩

/-- A rebuilt tree is well formed and has the record it was rebuilt from. -/
theorem toSegment_eq_ok {record : Record} {tree : Segment} (h : record.toSegment = .ok tree) :
    ofSegment tree = record ∧ tree.WellFormed := by
  induction record using record_induction generalizing tree with
  | literal id content =>
      cases h
      exact ⟨rfl, .literal id content⟩
  | editable id content =>
      cases h
      exact ⟨rfl, .editable id content⟩
  | composite id records ih =>
      obtain ⟨trees, ht, hd, rfl⟩ := toSegment_composite_eq_ok h
      obtain ⟨hrecords, hwell⟩ := toSegments_eq_ok ht fun record hm _ => ih record hm
      exact ⟨by rw [ofSegment, ofSegments_eq_map, hrecords], .composite hd hwell⟩
  | region id policy records ih =>
      obtain ⟨trees, ht, hd, rfl⟩ := toSegment_region_eq_ok h
      obtain ⟨hrecords, hwell⟩ := toSegments_eq_ok ht fun record hm _ => ih record hm
      exact ⟨by rw [ofSegment, ofSegments_eq_map, hrecords], .region hd hwell⟩

theorem exists_toSegments {records : List Record}
    (each : ∀ record ∈ records, ∃ tree, record.toSegment = .ok tree) :
    ∃ trees, toSegments records = .ok trees := by
  induction records with
  | nil => exact ⟨[], rfl⟩
  | cons record rest ih =>
      have hrest : ∀ record ∈ rest, ∃ tree, record.toSegment = .ok tree := by
        intro other hm
        exact each other (List.mem_cons_of_mem record hm)
      obtain ⟨tree, ht⟩ := each record List.mem_cons_self
      obtain ⟨trees, hts⟩ := ih hrest
      exact ⟨tree :: trees, by rw [toSegments, ht, hts]⟩

/-- Children of distinct recorded ids are rebuilt and accepted as a child list. -/
theorem exists_children (parent : String) {records : List Record}
    (hd : (records.map Record.id).Nodup)
    (each : ∀ record ∈ records, ∃ tree, record.toSegment = .ok tree) :
    ∃ trees, toSegments records = .ok trees ∧ Children.ofList parent trees = .ok trees := by
  obtain ⟨trees, ht⟩ := exists_toSegments each
  -- the rebuilt children have the recorded ids, so none is refused
  obtain ⟨hrecords, -⟩ := toSegments_eq_ok ht fun _ _ _ => toSegment_eq_ok
  have hids : Children.Distinct trees := by
    rw [← hrecords, ids_ofSegment] at hd
    exact hd
  exact ⟨trees, ht, Segment.ofList_of_distinct parent hids⟩

/-- A consistent record is never refused. -/
theorem Consistent.exists_toSegment {record : Record} (h : record.Consistent) :
    ∃ tree, record.toSegment = .ok tree := by
  induction h with
  | literal id content => exact ⟨.literal id content, rfl⟩
  | editable id content => exact ⟨.editable id content, rfl⟩
  | @composite id children distinct _ ih =>
      obtain ⟨trees, ht, hc⟩ := exists_children id distinct ih
      exact ⟨.composite id trees, by rw [toSegment, ht]; simp only [hc]⟩
  | @region id policy children distinct _ ih =>
      obtain ⟨trees, ht, hc⟩ := exists_children id distinct ih
      exact ⟨.region ⟨id, policy, trees⟩, by rw [toSegment, ht]; simp only [hc]⟩

/-- **Every well-formed tree reloads**, and the reloaded tree has its record. -/
theorem exists_reload {tree : Segment} (h : tree.WellFormed) :
    ∃ reloaded, (ofSegment tree).toSegment = .ok reloaded ∧
      ofSegment reloaded = ofSegment tree ∧ reloaded.WellFormed := by
  obtain ⟨reloaded, hr⟩ := (consistent_ofSegment h).exists_toSegment
  exact ⟨reloaded, hr, toSegment_eq_ok hr⟩

end Record

end Regeneration
