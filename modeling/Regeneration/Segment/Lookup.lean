import Regeneration.Segment.Synchronized

/-!
# Finding and editing segments

Two ways lead down a tree. `find?` also answers from the former side of a
synchronized segment when the merged side has no such child, so that history
can be inspected. `live?` follows the merged side only: it reaches exactly the
segments that are rendered. Edits go through live segments and change the
content of one editable leaf.

Main statement: `find?_of_live?`, a live segment is what `find?` answers too.
-/

set_option autoImplicit false

namespace Regeneration.Segment

/-- The child of the given id, from the merged side first and else from the
former side. -/
def child? (tree : Segment) (id : String) : Option Segment :=
  match tree with
  | .literal .. | .editable .. => none
  | .composite _ children => Children.get? children id
  | .region list => Children.get? list.children id
  | .synchronized merged former _ =>
    (Children.get? merged.children id).or
      (former.bind fun list => Children.get? list.children id)

/-- The child of the given id that belongs to the tree of this generation. -/
def liveChild? (tree : Segment) (id : String) : Option Segment :=
  Children.get? tree.children id

/-- The segment reached through a list of ids, former sides included. -/
def find? (tree : Segment) : List String → Option Segment
  | [] => some tree
  | id :: ids => (tree.child? id).bind fun child => child.find? ids

/-- The segment reached through a list of ids without entering a former side. -/
def live? (tree : Segment) : List String → Option Segment
  | [] => some tree
  | id :: ids => (tree.liveChild? id).bind fun child => child.live? ids

/-- The tree with a function applied to each of its live children. -/
def mapChildren (f : Segment → Segment) : Segment → Segment
  | .literal id content => .literal id content
  | .editable id content => .editable id content
  | .composite id children => .composite id (children.map f)
  | .region list => .region { list with children := list.children.map f }
  | .synchronized merged former order =>
    .synchronized { merged with children := merged.children.map f } former order

/-- The tree with new content in the editable leaf at the given place. -/
def putContent (content : String) : List String → Segment → Segment
  | [], .editable id _ => .editable id content
  | [], tree => tree
  | id :: ids, tree =>
    tree.mapChildren fun child => if child.id = id then putContent content ids child else child

/-- The id and content of the editable leaf at an address. -/
def editableAt? (tree : Segment) (target : Address) : Option (String × String) :=
  match tree.live? target.ids with
  | some (.editable id content) => some (id, content)
  | _ => none

/-- Assigns content to the editable leaf at an address. -/
def setContent (tree : Segment) (target : Address) (content : String) :
    Except SegmentError Segment :=
  match tree.live? target.ids with
  | some (.editable ..) => .ok (putContent content target.ids tree)
  | some _ => .error (.notEditable target)
  | none => .error (.notFound target)

theorem child?_of_liveChild? {tree child : Segment} {id : String}
    (h : tree.liveChild? id = some child) : tree.child? id = some child := by
  cases tree with
  | literal => simp [liveChild?, Segment.children, Children.get?, Keyed.find?] at h
  | editable => simp [liveChild?, Segment.children, Children.get?, Keyed.find?] at h
  | composite => exact h
  | region => exact h
  | synchronized merged former order =>
      have h' : Children.get? merged.children id = some child := h
      simp [child?, h']

/-- Looking up agrees with the live segment wherever there is one. -/
theorem find?_of_live? {tree found : Segment} {ids : List String}
    (h : tree.live? ids = some found) : tree.find? ids = some found := by
  induction ids generalizing tree with
  | nil => exact h
  | cons id ids ih =>
      rw [live?, Option.bind_eq_some_iff] at h
      obtain ⟨child, hc, hrest⟩ := h
      rw [find?, child?_of_liveChild? hc]
      exact ih hrest

end Regeneration.Segment
