import Mathlib.Data.Finset.Card
import Mathlib.Data.List.Induction
import Regeneration.Proofs.Keyed.Index
import Regeneration.Proofs.Segment.Built
import Regeneration.Proofs.Segment.Edits

/-!
# Child lists through any operations

A container keeps its children under their ids, in order. Children are pushed and removed,
the list is put in another order, and content is edited below it. Every key stays the id of
the child under it and no key is there twice, so that the list is one of children with
distinct ids and the operations are those on such a list.

An order is checked with two sets, of the ids that are expected and of those seen. The check
stops at the first id that is not expected or was seen before. If there is none, the sizes
of the sets decide; this is enough, because distinct expected ids, as many as there are, are
all of them.

Main statement: `child_list`. One step is `after_indexed`, the run `run_indexed`; which
orders are refused, and why, say `checkOrder_of_offence` and `checkOrder_of_sound`.
-/

set_option autoImplicit false

namespace Regeneration

open Segment (WellFormedList)

namespace Children

/-! ## Orders that are refused -/

/-- Some ids, each once, that are all expected. -/
def Sound (expected order : List String) : Prop :=
  order.Nodup ∧ ∀ id ∈ order, id ∈ expected

/-- The first id in an order that is not expected or stands in it before. -/
def FirstOffence (expected order : List String) (id : String) : Prop :=
  ∃ front back, order = front ++ id :: back ∧ Sound expected front ∧ (id ∉ expected ∨ id ∈ front)

section Checks

variable {parent : String} {expected order : List String}

theorem Sound.append_singleton {id : String} (h : Sound expected order) (hid : id ∈ expected)
    (hfree : id ∉ order) : Sound expected (order ++ [id]) := by
  refine ⟨List.nodup_append.2 ⟨h.1, List.nodup_singleton id, ?_⟩, ?_⟩
  · rintro other hm _ hlast rfl
    rw [List.mem_singleton.1 hlast] at hm
    exact hfree hm
  · intro other hm
    rcases List.mem_append.1 hm with hm | hm
    · exact h.2 other hm
    · rw [List.mem_singleton.1 hm]
      exact hid

/-- An order is sound if nothing in it offends. -/
theorem sound_of_no_offence (h : ∀ id, ¬ FirstOffence expected order id) :
    Sound expected order := by
  induction order using List.reverseRecOn with
  | nil => exact ⟨List.nodup_nil, fun _ hm => nomatch hm⟩
  | append_singleton front id ih =>
      -- what offends in the front is what offends first in the whole order
      have hfront : Sound expected front := by
        apply ih
        rintro other ⟨before, back, rfl, hbefore, hother⟩
        exact h other ⟨before, back ++ [id], by simp, hbefore, hother⟩
      have hid : ¬ (id ∉ expected ∨ id ∈ front) := fun hid => h id ⟨front, [], rfl, hfront, hid⟩
      rw [not_or, not_not] at hid
      exact hfront.append_singleton hid.1 hid.2

/-- A sound beginning is placed without objection. -/
theorem checkOrder_append {front placed : List String} (h : Sound expected front)
    (hp : ∀ id ∈ front, id ∉ placed) (order : List String) :
    checkOrder parent expected placed (front ++ order)
      = checkOrder parent expected (front.reverse ++ placed) order := by
  induction front generalizing placed with
  | nil => rfl
  | cons id front ih =>
      obtain ⟨hid, hnodup⟩ := List.nodup_cons.1 h.1
      have hexpected := List.forall_mem_cons.1 h.2
      have hfree := List.forall_mem_cons.1 hp
      -- the id placed now is none of those to come
      have hrest : ∀ other ∈ front, other ∉ id :: placed := by
        intro other hm hother
        rcases List.mem_cons.1 hother with rfl | hother
        · exact hid hm
        · exact hfree.2 other hm hother
      rw [List.cons_append, checkOrder, if_neg (not_not_intro hexpected.1), if_neg hfree.1,
        ih ⟨hnodup, hexpected.2⟩ hrest, List.reverse_cons, List.append_assoc,
        List.singleton_append]

/-- **The check answers the first offence.** -/
theorem checkOrder_of_offence {id : String} (h : FirstOffence expected order id) :
    checkOrder parent expected [] order
      = .error (if id ∈ expected then .invalidOrder parent (.repeated id)
          else .unknownChild parent id) := by
  obtain ⟨front, back, rfl, hsound, hid⟩ := h
  rw [checkOrder_append hsound fun _ _ => List.not_mem_nil, List.append_nil, checkOrder]
  by_cases hknown : id ∈ expected
  · have hplaced : id ∈ front := hid.resolve_left (not_not_intro hknown)
    rw [if_neg (not_not_intro hknown), if_pos (List.mem_reverse.2 hplaced), if_pos hknown]
  · rw [if_pos hknown, if_neg hknown]

/-- Without an offence only the number of ids can be wrong. -/
theorem checkOrder_of_sound (h : Sound expected order) :
    checkOrder parent expected [] order
      = if order.length = expected.length then .ok ()
        else .error (.invalidOrder parent (.incomplete order.length expected.length)) := by
  have hplaced : checkOrder parent expected [] (order ++ [])
      = checkOrder parent expected (order.reverse ++ []) [] :=
    checkOrder_append h (fun _ _ => List.not_mem_nil) []
  rw [List.append_nil, List.append_nil] at hplaced
  rw [hplaced, checkOrder, List.length_reverse]

/-- As many expected ids as there are, each once, are all of them. -/
theorem perm_iff_sound (hd : expected.Nodup) :
    order.Perm expected ↔ Sound expected order ∧ order.length = expected.length := by
  constructor
  · intro hp
    exact ⟨⟨hp.nodup_iff.2 hd, fun id hm => hp.subset hm⟩, hp.length_eq⟩
  · rintro ⟨⟨hnodup, hsubset⟩, hlength⟩
    exact (List.subperm_of_subset hnodup hsubset).perm_of_length_le hlength.ge

theorem checkOrder_eq_ok_iff (hd : expected.Nodup) :
    checkOrder parent expected [] order = .ok () ↔ order.Perm expected := by
  rw [perm_iff_sound hd]
  by_cases hsound : Sound expected order
  · rw [checkOrder_of_sound hsound]
    split
    · next hlength => exact iff_of_true rfl ⟨hsound, hlength⟩
    · next hlength => exact iff_of_false nofun fun h => hlength h.2
  · obtain ⟨id, hoffence⟩ := not_forall_not.1 fun h => hsound (sound_of_no_offence h)
    rw [checkOrder_of_offence hoffence]
    exact iff_of_false nofun fun h => hsound h.1

end Checks

/-! ## What the operations on a list do -/

/-- Edits content below the list: the list as it is then. -/
def edit (target : Address) (content : String) (children : Children) :
    Except SegmentError Children :=
  match (Segment.composite "" children).setContent target content with
  | .ok tree => .ok tree.children
  | .error error => .error error

/-- An edit of a container is one of its child list. -/
theorem edit_children {tree : Segment} (h : tree.kind.isContainer = true) (target : Address)
    (content : String) :
    (tree.setContent target content).map Segment.children = edit target content tree.children := by
  rw [edit, Segment.setContent, Segment.setContent]
  cases hids : target.ids with
  | nil =>
      cases tree with
      | literal | editable => cases h
      | composite | region | synchronized => rfl
  | cons id ids =>
      have hlive : (Segment.composite "" tree.children).live? (id :: ids)
          = tree.live? (id :: ids) := rfl
      rw [hlive]
      cases tree.live? (id :: ids) with
      | none => rfl
      | some place =>
          cases place with
          | editable =>
              cases tree with
              | literal | editable => cases h
              | composite | region | synchronized => rfl
          | literal | composite | region | synchronized => rfl

/-- The operations on a list of children with distinct ids, as those on any list: pushing
appends, removing takes one out, an order is taken exactly if it is one of the ids, and an
edit changes the one child that it goes through. -/
structure Sequence (children : Children) : Prop where
  push_eq : ∀ parent child, Children.push parent children child
    = if child.id ∈ children.ids then .error (.duplicateChild parent child.id)
      else .ok (children ++ [child])
  remove_eq : ∀ id, children.remove id = children.filter fun child => child.id != id
  get?_eq_some_iff : ∀ id child, children.get? id = some child ↔ child ∈ children ∧ child.id = id
  accepted : ∀ parent order,
    (∃ arranged, reorder parent order children = .ok arranged) ↔ order.Perm children.ids
  reorder_eq_ok_iff : ∀ parent order arranged, reorder parent order children = .ok arranged ↔
    arranged.ids = order ∧ arranged.Perm children
  offence : ∀ parent order id, FirstOffence children.ids order id →
    reorder parent order children
      = .error (if id ∈ children.ids then .invalidOrder parent (.repeated id)
          else .unknownChild parent id)
  incomplete : ∀ parent order, (∀ id, ¬ FirstOffence children.ids order id) →
    ¬ order.Perm children.ids →
    reorder parent order children
      = .error (.invalidOrder parent (.incomplete order.length children.length))
  edits : ∀ tree : Segment, tree.kind.isContainer = true → tree.children = children →
    ∀ target content,
      (tree.setContent target content).map Segment.children = edit target content children
  edit_eq_ok : ∀ target content edited, edit target content children = .ok edited →
    ∃ id ids, target.ids = id :: ids ∧ edited = children.map fun child =>
      if child.id = id then child.putContent content ids else child

theorem remove_eq_filter {children : Children} (hd : children.Distinct) (id : String) :
    children.remove id = children.filter fun child => child.id != id := by
  induction children with
  | nil => rfl
  | cons child rest ih =>
      obtain ⟨hchild, hrest⟩ := List.nodup_cons.1 hd
      by_cases hid : child.id = id
      · -- no other child has the id, so nothing else is filtered out
        have hothers : ∀ other ∈ rest, (other.id != id) = true := by
          intro other hm
          rw [bne_iff_ne, ← hid]
          intro he
          exact hchild (he ▸ List.mem_map_of_mem hm)
        rw [remove, List.eraseP_cons_of_pos (by simpa using hid),
          List.filter_cons_of_neg (by simpa using hid), List.filter_eq_self.2 hothers]
      · rw [remove, List.eraseP_cons_of_neg (by simpa using hid),
          List.filter_cons_of_pos (by simpa using hid), ← ih hrest, remove]

theorem reorder_eq_ok_iff {children : Children} (hd : children.Distinct) {parent : String}
    {order : List String} {arranged : Children} :
    reorder parent order children = .ok arranged ↔
      arranged.ids = order ∧ arranged.Perm children := by
  have hcheck : checkOrder parent children.ids [] order = .ok () ↔ order.Perm children.ids :=
    checkOrder_eq_ok_iff hd
  have hchecked : reorder parent order children = .ok arranged ↔
      order.Perm children.ids ∧ arrange order children = arranged := by
    rw [← hcheck, reorder]
    cases checkOrder parent children.ids [] order with
    | ok => simp
    | error error => simp
  rw [hchecked]
  constructor
  · -- an order of the ids is the ids of a permutation, which arranging gives back
    rintro ⟨hp, rfl⟩
    obtain ⟨wanted, hwanted, rfl⟩ := Keyed.exists_perm_of_keys hp
    have harrange : arrange (wanted.map Segment.id) children = wanted :=
      Keyed.arrange_keys_of_perm hwanted hd
    rw [harrange]
    exact ⟨rfl, hwanted⟩
  · rintro ⟨rfl, hp⟩
    exact ⟨hp.map Segment.id, Keyed.arrange_keys_of_perm hp hd⟩

theorem edit_eq_ok {target : Address} {content : String} {children edited : Children}
    (h : edit target content children = .ok edited) :
    ∃ id ids, target.ids = id :: ids ∧ edited = children.map fun child =>
      if child.id = id then child.putContent content ids else child := by
  rw [edit] at h
  split at h
  · next tree htree =>
      cases h
      obtain ⟨⟨leaf, held, hlive⟩, rfl⟩ := (Segment.setContent_eq_ok_iff _ _ _).1 htree
      cases hids : target.ids with
      | nil =>
          rw [hids] at hlive
          cases hlive
      | cons id ids => exact ⟨id, ids, rfl, rfl⟩
  · cases h

theorem sequence_of_distinct {children : Children} (hd : children.Distinct) :
    Sequence children where
  push_eq parent child := by
    rw [push]
    simp only [contains_iff]
  remove_eq := remove_eq_filter hd
  get?_eq_some_iff id child := by
    constructor
    · intro h
      exact ⟨Keyed.mem_of_find? h, Keyed.key_of_find? h⟩
    · rintro ⟨hm, rfl⟩
      exact Keyed.find?_of_mem hd hm
  accepted parent order := by
    constructor
    · rintro ⟨arranged, h⟩
      obtain ⟨rfl, hp⟩ := (reorder_eq_ok_iff hd).1 h
      exact hp.map Segment.id
    · intro hp
      obtain ⟨arranged, harranged, rfl⟩ := Keyed.exists_perm_of_keys hp
      exact ⟨arranged, (reorder_eq_ok_iff hd).2 ⟨rfl, harranged⟩⟩
  reorder_eq_ok_iff _ _ _ := reorder_eq_ok_iff hd
  offence parent order id h := by rw [reorder, checkOrder_of_offence h]
  incomplete parent order h hp := by
    have hsound := sound_of_no_offence h
    have hlength : order.length ≠ children.ids.length := fun hl =>
      hp ((perm_iff_sound hd).2 ⟨hsound, hl⟩)
    rw [reorder, checkOrder_of_sound hsound, if_neg hlength, ids, List.length_map]
  edits := by
    rintro tree h rfl target content
    exact edit_children h target content
  edit_eq_ok _ _ _ := edit_eq_ok

/-! ## Steps -/

end Children

/-- An operation on a child list. -/
inductive ChildStep where
  | push (parent : String) (child : Segment)
  | remove (id : String)
  | reorder (parent : String) (order : List String)
  | edit (target : Address) (content : String)

/-- Only well-formed children can be pushed. -/
def ChildStep.WellFormed : ChildStep → Prop
  | .push _ child => child.WellFormed
  | .remove _ | .reorder .. | .edit .. => True

namespace Children

/-- The list that an operation gives. -/
def perform (children : Children) : ChildStep → Except SegmentError Children
  | .push parent child => push parent children child
  | .remove id => .ok (children.remove id)
  | .reorder parent order => reorder parent order children
  | .edit target content => edit target content children

/-- The list after an operation; one that fails leaves it as it is. -/
def after (children : Children) (step : ChildStep) : Children :=
  match children.perform step with
  | .ok list => list
  | .error _ => children

/-- The list after some operations on an empty one. -/
def run (steps : List ChildStep) : Children := steps.foldl after []

theorem wellFormed_composite {children : Children} (h : WellFormedList children) :
    (Segment.composite "" children).WellFormed :=
  .composite h.1 h.2

theorem wellFormedList_after {children : Children} {step : ChildStep}
    (h : WellFormedList children) (hs : step.WellFormed) :
    WellFormedList (children.after step) := by
  rw [after]
  split
  · next list hlist =>
      cases step with
      | push parent child => exact h.push hs hlist
      | remove id =>
          cases hlist
          exact h.remove id
      | reorder parent order => exact h.reorder hlist
      | edit target content =>
          rw [perform, edit] at hlist
          split at hlist
          · next tree htree =>
              cases hlist
              have htree := (wellFormed_composite h).setContent htree
              exact ⟨htree.distinct, fun child hm => htree.each hm⟩
          · cases hlist
  · exact h

end Children

/-! ## The list under its ids -/

/-- Children under keys, in the order in which the keys came. -/
abbrev ChildIndex := Index Segment

namespace ChildIndex

/-- Puts a child last under its id, if the id is free. -/
def push (parent : String) (child : Segment) (index : ChildIndex) :
    ChildIndex × Except SegmentError Unit :=
  if (index.get? child.id).isSome then (index, .error (.duplicateChild parent child.id))
  else (index.put child.id child, .ok ())

/-- Takes the child of an id out. -/
def remove (id : String) (index : ChildIndex) : ChildIndex × Option Segment :=
  match index.take? id with
  | some (entry, rest) => (rest, some entry.2)
  | none => (index, none)

/-- Checks an order by the set of the expected ids and the set of the ids seen. -/
def checkSets (parent : String) (expected : Finset String) :
    Finset String → List String → Except SegmentError Unit
  | seen, [] =>
    if seen.card = expected.card then .ok ()
    else .error (.invalidOrder parent (.incomplete seen.card expected.card))
  | seen, id :: order =>
    if id ∉ expected then .error (.unknownChild parent id)
    else if id ∈ seen then .error (.invalidOrder parent (.repeated id))
    else checkSets parent expected (insert id seen) order

/-- Moves the children one by one to a new list if the order is one of the keys. -/
def reorder (parent : String) (order : List String) (index : ChildIndex) :
    Except SegmentError ChildIndex :=
  match checkSets parent index.keys.toFinset ∅ order with
  | .ok () => .ok (Index.moveFront order index [])
  | .error error => .error error

/-- Edits the child in its place under its key. -/
def edit (target : Address) (content : String) (index : ChildIndex) :
    ChildIndex × Except SegmentError Unit :=
  match target.ids with
  | [] => (index, .error (.notEditable target))
  | id :: ids =>
    match index.get? id with
    | none => (index, .error (.notFound target))
    | some child =>
      let (child, answer) := Segment.assign target content ids child
      (index.put id child, answer)

/-- The list after an operation; an order that is refused leaves it as it is. -/
def after (index : ChildIndex) : ChildStep → ChildIndex
  | .push parent child => (index.push parent child).1
  | .remove id => (index.remove id).1
  | .reorder parent order =>
    match index.reorder parent order with
    | .ok arranged => arranged
    | .error _ => index
  | .edit target content => (index.edit target content).1

/-- The list after some operations on an empty one. -/
def run (steps : List ChildStep) : ChildIndex := steps.foldl after []

end ChildIndex

namespace Children

/-- The children under their ids. -/
def indexed (children : Children) : ChildIndex := children.map fun child => (child.id, child)

variable {children : Children}

theorem keys_indexed (children : Children) : children.indexed.keys = children.ids := by
  rw [Index.keys, indexed, List.map_map]
  rfl

theorem find?_indexed (children : Children) (id : String) :
    Keyed.find? Prod.fst id children.indexed
      = (children.get? id).map fun child => (child.id, child) :=
  Keyed.find?_map (fun _ => rfl) id children

theorem get?_indexed (children : Children) (id : String) :
    children.indexed.get? id = children.get? id := by
  rw [Index.get?, find?_indexed, Option.map_map]
  exact Option.map_id'

theorem take?_indexed (children : Children) (id : String) :
    children.indexed.take? id
      = (children.get? id).map fun child => ((child.id, child), (children.remove id).indexed) := by
  have hrest : (children.indexed.eraseP fun other => other.1 == id)
      = (children.remove id).indexed := List.eraseP_map
  rw [Index.take?, find?_indexed, hrest, Option.map_map]
  rfl

theorem put_indexed {child : Segment} (h : child.id ∉ children.ids) :
    children.indexed.put child.id child = indexed (children ++ [child]) := by
  rw [Index.put_of_not_mem (by rwa [keys_indexed]), indexed, indexed, List.map_append]
  rfl

/-- A child put in the place of the one of its id. -/
theorem put_indexed_of_mem (hd : children.Distinct) {child : Segment}
    (h : child.id ∈ children.ids) :
    children.indexed.put child.id child
      = indexed (children.map fun other => if other.id = child.id then child else other) := by
  induction children with
  | nil => cases h
  | cons head rest ih =>
      obtain ⟨hhead, hrest⟩ := List.nodup_cons.1 hd
      rw [indexed, List.map_cons, Index.put, List.map_cons]
      by_cases hid : head.id = child.id
      · -- the head is the only child of the id, so the rest stays as it is
        have hothers : (rest.map fun other => if other.id = child.id then child else other)
            = rest := by
          rw [List.map_congr_left, List.map_id']
          intro other hm
          apply if_neg
          intro he
          exact hhead (hid.trans he.symm ▸ List.mem_map_of_mem hm)
        rw [if_pos hid, if_pos hid, hothers]
        rfl
      · have hmem : child.id ∈ Children.ids rest := by
          rcases List.mem_cons.1 h with he | hm
          · exact absurd he.symm hid
          · exact hm
        rw [if_neg hid, if_neg hid]
        exact congrArg _ (ih hrest hmem)

theorem push_indexed (children : Children) (parent : String) (child : Segment) :
    children.indexed.push parent child
      = match push parent children child with
        | .ok extended => (extended.indexed, .ok ())
        | .error error => (children.indexed, .error error) := by
  have htaken : (children.get? child.id).isSome = true ↔ child.id ∈ children.ids :=
    Keyed.find?_isSome_iff
  rw [ChildIndex.push, push, get?_indexed]
  by_cases h : child.id ∈ children.ids
  · rw [if_pos (htaken.2 h), if_pos (contains_iff.2 h)]
  · rw [if_neg (mt htaken.1 h), if_neg (mt contains_iff.1 h), put_indexed h]

theorem remove_indexed (children : Children) (id : String) :
    children.indexed.remove id = ((children.remove id).indexed, children.get? id) := by
  rw [ChildIndex.remove, take?_indexed]
  cases h : children.get? id with
  | some child => rfl
  | none =>
      have hkeep : children.remove id = children := by
        rw [remove, List.eraseP_of_forall_not]
        intro child hm
        rw [get?, Keyed.find?, List.find?_eq_none] at h
        exact h child hm
      rw [hkeep]
      rfl

theorem checkSets_eq {parent : String} {expected placed : List String} (he : expected.Nodup)
    (hp : placed.Nodup) (order : List String) :
    ChildIndex.checkSets parent expected.toFinset placed.toFinset order
      = checkOrder parent expected placed order := by
  induction order generalizing placed with
  | nil =>
      rw [ChildIndex.checkSets, checkOrder, List.toFinset_card_of_nodup he,
        List.toFinset_card_of_nodup hp]
  | cons id order ih =>
      simp only [ChildIndex.checkSets, checkOrder, List.mem_toFinset]
      by_cases hid : id ∈ placed
      · rw [if_pos hid, if_pos hid]
      · rw [if_neg hid, if_neg hid, ← List.toFinset_cons, ih (List.nodup_cons.2 ⟨hid, hp⟩)]

theorem reorder_indexed (hd : children.Distinct) (parent : String) (order : List String) :
    children.indexed.reorder parent order = (reorder parent order children).map indexed := by
  have hcheck : ChildIndex.checkSets parent children.indexed.keys.toFinset ∅ order
      = checkOrder parent children.ids [] order := by
    rw [keys_indexed]
    exact checkSets_eq hd List.nodup_nil order
  have hmove : Index.moveFront order children.indexed [] = (arrange order children).indexed := by
    rw [Index.moveFront_eq order (by rwa [List.nil_append, keys_indexed]), List.nil_append]
    exact Keyed.arrange_map (fun _ => rfl) order children
  rw [ChildIndex.reorder, reorder, hcheck, hmove]
  cases checkOrder parent children.ids [] order with
  | ok => rfl
  | error error => rfl

/-- An assignment below a child leaves its id. -/
theorem id_assign {child : Segment} (h : child.WellFormed) (target : Address) (content : String)
    (ids : List String) : (Segment.assign target content ids child).1.id = child.id := by
  rw [Segment.assign_eq h]
  split
  · exact Segment.id_putContent content ids child
  · rfl
  · rfl

/-- An assignment below a child puts the child back under its own key, as it does in a tree of
the children. -/
theorem put_assign (h : WellFormedList children) {id : String} {child : Segment}
    (hget : children.get? id = some child) (target : Address) (content : String)
    (ids : List String) :
    children.indexed.put id (Segment.assign target content ids child).1
      = indexed ((Segment.composite "" children).putChild
          (Segment.assign target content ids child).1).children := by
  have hid : child.id = id := Keyed.key_of_find? hget
  have hkept : (Segment.assign target content ids child).1.id = id := by
    rw [id_assign (h.2 child (Keyed.mem_of_find? hget)), hid]
  have hmem : id ∈ children.ids := hid ▸ List.mem_map_of_mem (Keyed.mem_of_find? hget)
  have hput := put_indexed_of_mem h.1 (hkept.symm ▸ hmem)
  rw [hkept] at hput
  rw [hput, Segment.putChild, hkept]
  rfl

theorem edit_indexed (h : WellFormedList children) (target : Address) (content : String) :
    children.indexed.edit target content
      = match edit target content children with
        | .ok edited => (edited.indexed, .ok ())
        | .error error => (children.indexed, .error error) := by
  have hassign := Segment.assign_eq_setContent (wellFormed_composite h) target content
  rw [ChildIndex.edit, edit]
  cases hids : target.ids with
  | nil =>
      rw [Segment.setContent, hids]
      rfl
  | cons id ids =>
      simp only [get?_indexed]
      have hlive : (Segment.composite "" children).liveChild? id = children.get? id := rfl
      rw [hids, Segment.assign, hlive] at hassign
      cases hget : children.get? id with
      | none =>
          rw [Segment.setContent, hids, Segment.live?, hlive, hget]
          rfl
      | some child =>
          simp only [hget] at hassign
          simp only [put_assign h hget]
          -- assigning in place gives the edited tree, or the tree as it was
          cases hset : (Segment.composite "" children).setContent target content with
          | ok tree =>
              rw [hset] at hassign
              obtain ⟨htree, hanswer⟩ := Prod.mk.inj hassign
              rw [htree, hanswer]
          | error error =>
              rw [hset] at hassign
              obtain ⟨htree, hanswer⟩ := Prod.mk.inj hassign
              rw [htree, hanswer]
              rfl

/-! ## Runs -/

/-- **An operation on the list under its ids** is the one on the list. -/
theorem after_indexed (h : WellFormedList children) (step : ChildStep) :
    children.indexed.after step = (children.after step).indexed := by
  cases step with
  | push parent child =>
      rw [ChildIndex.after, push_indexed, after, perform]
      cases push parent children child <;> rfl
  | remove id =>
      rw [ChildIndex.after, remove_indexed]
      rfl
  | reorder parent order =>
      rw [ChildIndex.after, reorder_indexed h.1, after, perform]
      cases reorder parent order children <;> rfl
  | edit target content =>
      rw [ChildIndex.after, edit_indexed h, after, perform]
      cases edit target content children <;> rfl

theorem run_indexed {steps : List ChildStep} (h : ∀ step ∈ steps, step.WellFormed) :
    WellFormedList (run steps) ∧ ChildIndex.run steps = (run steps).indexed := by
  induction steps using List.reverseRecOn with
  | nil => exact ⟨⟨List.nodup_nil, fun _ hm => nomatch hm⟩, rfl⟩
  | append_singleton steps step ih =>
      obtain ⟨hwell, hindexed⟩ := ih fun other hm => h other (List.mem_append_left [step] hm)
      have hstep : step.WellFormed := h step (List.mem_append_right steps List.mem_cons_self)
      rw [ChildIndex.run, run, List.foldl_concat, List.foldl_concat]
      refine ⟨wellFormedList_after hwell hstep, ?_⟩
      rw [← ChildIndex.run, hindexed, ← run]
      exact after_indexed hwell step

/-- The children under their ids, and the operations on them those on the list. -/
structure Represents (index : ChildIndex) (children : Children) : Prop where
  keys_nodup : index.keys.Nodup
  key_eq : ∀ entry ∈ index, entry.1 = entry.2.id
  entries : index = children.indexed
  push : ∀ parent child, index.push parent child
    = match Children.push parent children child with
      | .ok extended => (extended.indexed, .ok ())
      | .error error => (index, .error error)
  remove : ∀ id, index.remove id = ((children.remove id).indexed, children.get? id)
  reorder : ∀ parent order,
    index.reorder parent order = (Children.reorder parent order children).map indexed
  edit : ∀ target content, index.edit target content
    = match Children.edit target content children with
      | .ok edited => (edited.indexed, .ok ())
      | .error error => (index, .error error)

theorem represents_indexed (h : WellFormedList children) :
    Represents children.indexed children where
  keys_nodup := by
    rw [keys_indexed]
    exact h.1
  key_eq entry hm := by
    obtain ⟨child, -, rfl⟩ := List.mem_map.1 hm
    rfl
  entries := rfl
  push := push_indexed children
  remove := remove_indexed children
  reorder := reorder_indexed h.1
  edit := edit_indexed h

/-- **A child list is a sequence of children with distinct ids.** Whatever is pushed, removed,
put in order and edited from the empty list on, each key is the id of the child under it and
none is there twice, and every operation is the one on the sequence of the children. An order
is taken exactly if it is one of the ids, and then the ids are in that order and the children
those they were. The first id that is not a child's or stands in the order before is what is
refused; that the order is incomplete is said only if there is no such id. -/
theorem child_list {steps : List ChildStep} (h : ∀ step ∈ steps, step.WellFormed) :
    Represents (ChildIndex.run steps) (run steps) ∧ Sequence (run steps) := by
  obtain ⟨hwell, hindexed⟩ := run_indexed h
  rw [hindexed]
  exact ⟨represents_indexed hwell, sequence_of_distinct hwell.1⟩

/-- Two leaves are pushed, a third is refused for its id, one is edited, and the two change
places. A further order is refused for its second id, although its third one is no child's. -/
theorem child_list_leaves :
    let steps : List ChildStep := [.push "list" (.editable "a" "one"),
      .push "list" (.editable "b" "two"), .push "list" (.literal "a" "three"),
      .edit ⟨["a"]⟩ "four", .reorder "list" ["b", "a"]]
    (∀ step ∈ steps, step.WellFormed) ∧
    ChildIndex.run steps = [("b", .editable "b" "two"), ("a", .editable "a" "four")] ∧
    (∃ arranged, reorder "list" ["a", "b"] (run steps) = .ok arranged) ∧
    reorder "list" ["b", "b", "c"] (run steps)
      = .error (.invalidOrder "list" (.repeated "b")) := by
  intro steps
  have h : ∀ step ∈ steps, step.WellFormed := by
    simp [steps, ChildStep.WellFormed, Segment.WellFormed.literal, Segment.WellFormed.editable]
  obtain ⟨-, hsequence⟩ := child_list h
  have hids : (run steps).ids = ["b", "a"] := rfl
  refine ⟨h, rfl, (hsequence.accepted "list" ["a", "b"]).2 ?_, ?_⟩
  · rw [hids]
    decide
  · have hoffence : FirstOffence (run steps).ids ["b", "b", "c"] "b" := by
      rw [hids]
      exact ⟨["b"], ["c"], rfl, ⟨by decide, by decide⟩, .inr (by decide)⟩
    rw [hsequence.offence "list" _ "b" hoffence, hids]
    rfl

end Children

end Regeneration
