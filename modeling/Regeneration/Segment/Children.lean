import Regeneration.Segment.Basic
import Regeneration.Segment.Error

/-!
# Child lists

The children of one container have distinct ids. A list is built by appending,
which refuses an id that is taken, and rearranged by a requested order, which
has to name every child exactly once.

Main statements: `push_eq_ok_iff` (appending fails exactly for a taken id),
`Distinct.push` and `remove_sublist` (appending and removing keep the rule).
-/

set_option autoImplicit false

namespace Regeneration

/-- The children of one container, in order. -/
abbrev Children := List Segment

namespace Children

/-- The ids in order. -/
def ids (children : Children) : List String := children.map Segment.id

/-- The child with the given id. -/
def get? (children : Children) (id : String) : Option Segment :=
  Keyed.find? Segment.id id children

/-- Whether a child has the id. -/
def contains (children : Children) (id : String) : Bool :=
  Keyed.contains Segment.id id children

/-- Distinct ids: the rule every child list keeps. -/
def Distinct (children : Children) : Prop := children.ids.Nodup

/-- Appends a child; refused if its id is taken. -/
def push (parent : String) (children : Children) (child : Segment) :
    Except SegmentError Children :=
  if children.contains child.id then .error (.duplicateChild parent child.id)
  else .ok (children ++ [child])

/-- The given segments appended one by one to a list. -/
def pushAll (parent : String) : Children → List Segment → Except SegmentError Children
  | children, [] => .ok children
  | children, child :: rest =>
    match push parent children child with
    | .ok extended => pushAll parent extended rest
    | .error error => .error error

/-- The child list of the given segments; refused at the first repeated id. -/
def ofList (parent : String) (segments : List Segment) : Except SegmentError Children :=
  pushAll parent [] segments

/-- The list without the child of the given id. -/
def remove (children : Children) (id : String) : Children :=
  children.eraseP fun child => child.id == id

/-- Checks that an order names every expected id exactly once, given the ids it
has named so far. -/
def checkOrder (parent : String) (expected : List String) :
    List String → List String → Except SegmentError Unit
  | placed, [] =>
    if placed.length = expected.length then .ok ()
    else .error (.invalidOrder parent (.incomplete placed.length expected.length))
  | placed, id :: order =>
    if id ∉ expected then .error (.unknownChild parent id)
    else if id ∈ placed then .error (.invalidOrder parent (.repeated id))
    else checkOrder parent expected (id :: placed) order

/-- The listed children first, in the order listed; the others after them. -/
def arrange (order : List String) (children : Children) : Children :=
  Keyed.arrange Segment.id order children

/-- The children in exactly the given order. -/
def reorder (parent : String) (order : List String) (children : Children) :
    Except SegmentError Children :=
  match checkOrder parent children.ids [] order with
  | .ok () => .ok (arrange order children)
  | .error error => .error error

theorem contains_iff {children : Children} {id : String} :
    children.contains id = true ↔ id ∈ children.ids :=
  Keyed.contains_iff

/-- Appending succeeds exactly if the id is free, and then appends. -/
theorem push_eq_ok_iff {parent : String} {children extended : Children} {child : Segment} :
    push parent children child = .ok extended ↔
      child.id ∉ children.ids ∧ extended = children ++ [child] := by
  rw [push]
  split
  · next h => simp [contains_iff.1 h]
  · next h =>
      have : child.id ∉ children.ids := fun hm => h (contains_iff.2 hm)
      simp [this, eq_comm]

theorem ids_push {parent : String} {children extended : Children} {child : Segment}
    (h : push parent children child = .ok extended) : extended.ids = children.ids ++ [child.id] := by
  rw [(push_eq_ok_iff.1 h).2]
  simp [ids]

/-- Appending keeps ids distinct. -/
theorem Distinct.push {parent : String} {children extended : Children} {child : Segment}
    (hd : children.Distinct) (h : Children.push parent children child = .ok extended) :
    extended.Distinct := by
  have hfree := (push_eq_ok_iff.1 h).1
  rw [Distinct, ids_push h, List.nodup_append]
  exact ⟨hd, by simp, fun a ha b hb e => hfree (by simp_all)⟩

/-- Removing keeps the other children in their order. -/
theorem remove_sublist (children : Children) (id : String) :
    (children.remove id).Sublist children :=
  List.eraseP_sublist

end Children

end Regeneration
