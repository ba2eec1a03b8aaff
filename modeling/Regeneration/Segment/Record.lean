import Regeneration.Segment.Synchronized

/-!
# Records of trees

A record is the persisted description of a tree. It has no synchronized
segments: a merged region is recorded as a plain list region in the order in
which it was emitted, which is the order the next run takes for history. A tree
is rebuilt from its record unless two siblings have the same id.

Main statements: `Record.id_ofSegment` (a record keeps the id) and
`Record.ofSegments_eq_map`.
-/

set_option autoImplicit false

namespace Regeneration

/-- The persisted description of a segment and everything below it. -/
inductive Record where
  | literal (id content : String)
  | editable (id content : String)
  | composite (id : String) (children : List Record)
  | region (id : String) (policy : OrderPolicy) (children : List Record)

namespace Record

instance : Inhabited Record := ⟨.literal "" ""⟩

/-- The id of the described segment. -/
def id : Record → String
  | .literal id _ => id
  | .editable id _ => id
  | .composite id _ => id
  | .region id _ _ => id

mutual
/-- Describes a tree. -/
def ofSegment : Segment → Record
  | .literal id content => .literal id content
  | .editable id content => .editable id content
  | .composite id children => .composite id (ofSegments children)
  | .region ⟨id, policy, children⟩ => .region id policy (ofSegments children)
  | .synchronized ⟨id, policy, children⟩ _ order =>
    .region id policy (Keyed.pick Record.id order (ofSegments children))
termination_by structural tree => tree

/-- Describes several trees. -/
def ofSegments : List Segment → List Record
  | [] => []
  | child :: rest => ofSegment child :: ofSegments rest
termination_by structural trees => trees
end

@[simp] theorem ofSegments_eq_map (trees : List Segment) :
    ofSegments trees = trees.map ofSegment := by
  induction trees with
  | nil => rfl
  | cons tree rest ih => rw [ofSegments, ih, List.map_cons]

@[simp] theorem id_ofSegment (tree : Segment) : (ofSegment tree).id = tree.id := by
  cases tree <;> rfl

mutual
/-- Rebuilds the described tree; refused at the first sibling whose id is
taken, children before their container. -/
def toSegment : Record → Except SegmentError Segment
  | .literal id content => .ok (.literal id content)
  | .editable id content => .ok (.editable id content)
  | .composite id records =>
    match toSegments records with
    | .error error => .error error
    | .ok segments =>
      match Children.ofList id segments with
      | .error error => .error error
      | .ok children => .ok (.composite id children)
  | .region id policy records =>
    match toSegments records with
    | .error error => .error error
    | .ok segments =>
      match Children.ofList id segments with
      | .error error => .error error
      | .ok children => .ok (.region ⟨id, policy, children⟩)
termination_by structural record => record

/-- Rebuilds several trees, stopping at the first that is refused. -/
def toSegments : List Record → Except SegmentError (List Segment)
  | [] => .ok []
  | record :: rest =>
    match toSegment record with
    | .error error => .error error
    | .ok segment =>
      match toSegments rest with
      | .error error => .error error
      | .ok segments => .ok (segment :: segments)
termination_by structural records => records
end

end Record

end Regeneration
