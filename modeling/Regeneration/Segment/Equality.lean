import Regeneration.Segment.Synchronized

/-!
# Equality of trees

Two trees are the same when they have the same kinds, ids, policies and
contents, and when their child lists hold the same children under the same ids.
The position of a child in its list is not compared; the emitted order of a
synchronized segment is.
-/

set_option autoImplicit false

namespace Regeneration.Segment

mutual
/-- Whether two trees are the same up to the positions of children. -/
def same : Segment → Segment → Bool
  | .literal id content, .literal id' content' => id == id' && content == content'
  | .editable id content, .editable id' content' => id == id' && content == content'
  | .composite id children, .composite id' children' =>
    id == id' && children.length == children'.length && sameEach children children'
  | .region list, .region list' => sameRegion list list'
  | .synchronized merged former order, .synchronized merged' former' order' =>
    sameRegion merged merged' && sameFormer former former' && order == order'
  | _, _ => false
termination_by structural tree => tree

/-- Whether every child has an equal under its id in the other list. -/
def sameEach : List Segment → Children → Bool
  | [], _ => true
  | child :: rest, others =>
    (match others.get? child.id with
      | some other => same child other
      | none => false) && sameEach rest others
termination_by structural trees => trees

/-- Whether two list regions are the same. -/
def sameRegion : Region Segment → Region Segment → Bool
  | ⟨id, policy, children⟩, other =>
    id == other.id && policy == other.policy && children.length == other.children.length
      && sameEach children other.children
termination_by structural list => list

/-- Whether two former regions are the same or both missing. -/
def sameFormer : Option (Region Segment) → Option (Region Segment) → Bool
  | none, none => true
  | some list, some list' => sameRegion list list'
  | _, _ => false
termination_by structural former => former
end

end Regeneration.Segment
