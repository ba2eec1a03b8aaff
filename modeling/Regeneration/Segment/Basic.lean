import Regeneration.Keyed

/-!
# Segment trees

A generated file is a tree of identified segments. Leaves hold text: a literal
belongs to the generator, an editable leaf to its user. A composite has the
children its template gives it. A list region has one child per model element
and a policy for their order. A synchronized segment is a list region after a
merge: the merged region, the region of the run before, and the order in which
the merged children are emitted.

Main statement: `Segment.tree_induction`, induction with a hypothesis for every
child, those of a former region included.
-/

set_option autoImplicit false

namespace Regeneration

/-- How a list region orders its children when it is merged with its former
self. -/
inductive OrderPolicy where
  /-- The order of the newest generation. -/
  | generated
  /-- Survivors keep the order they had, new children follow. -/
  | preserve
  deriving DecidableEq, Inhabited, Repr

/-- The policy's name in records, messages and dumps. -/
def OrderPolicy.name : OrderPolicy → String
  | .generated => "generated"
  | .preserve => "preserve"

/-- Reads a policy's name. -/
def OrderPolicy.ofName? : String → Option OrderPolicy
  | "generated" => some .generated
  | "preserve" => some .preserve
  | _ => none

/-- The kinds of segments. -/
inductive SegmentKind where
  | literal
  | editable
  | composite
  | region
  | synchronized
  deriving DecidableEq, Repr

/-- The kind's name in messages and dumps. -/
def SegmentKind.name : SegmentKind → String
  | .literal => "literal"
  | .editable => "variable"
  | .composite => "composite"
  | .region => "appendable"
  | .synchronized => "synchronized"

/-- Whether segments of the kind have children. -/
def SegmentKind.isContainer : SegmentKind → Bool
  | .literal | .editable => false
  | .composite | .region | .synchronized => true

/-- Whether segments of the kind are list regions, merged or not. -/
def SegmentKind.isList : SegmentKind → Bool
  | .region | .synchronized => true
  | _ => false

/-- A list region over a type of children. -/
structure Region (α : Type) where
  id : String
  policy : OrderPolicy
  children : List α

/-- A node of a generated file. -/
inductive Segment where
  /-- Text of the generator. -/
  | literal (id content : String)
  /-- Text of the user, filled with a default at first. -/
  | editable (id content : String)
  /-- A container whose children the template fixes. -/
  | composite (id : String) (children : List Segment)
  /-- An open-ended list of children. -/
  | region (list : Region Segment)
  /-- A merged list: the list of this generation, the list of the one before,
  and the ids of the former in the order they are emitted. -/
  | synchronized (merged : Region Segment) (former : Option (Region Segment))
      (order : List String)

instance : Inhabited Segment := ⟨.literal "" ""⟩

namespace Segment

/-- The id; a merged list has the id of its current side. -/
def id : Segment → String
  | .literal id _ => id
  | .editable id _ => id
  | .composite id _ => id
  | .region list => list.id
  | .synchronized merged _ _ => merged.id

/-- The kind. -/
def kind : Segment → SegmentKind
  | .literal .. => .literal
  | .editable .. => .editable
  | .composite .. => .composite
  | .region _ => .region
  | .synchronized .. => .synchronized

/-- The text of a leaf. -/
def content? : Segment → Option String
  | .literal _ content => some content
  | .editable _ content => some content
  | _ => none

/-- The children that belong to the tree of this generation; former children
are not among them. -/
def children : Segment → List Segment
  | .literal .. | .editable .. => []
  | .composite _ children => children
  | .region list => list.children
  | .synchronized merged _ _ => merged.children

/-- The ids of the children in the order they are emitted. -/
def childOrder : Segment → List String
  | .literal .. | .editable .. => []
  | .composite _ children => children.map id
  | .region list => list.children.map id
  | .synchronized _ _ order => order

mutual
/-- The number of segments of the tree, its root included and former regions
left out. -/
def nodeCount : Segment → Nat
  | .literal .. | .editable .. => 1
  | .composite _ children => 1 + nodeCountAll children
  | .region ⟨_, _, children⟩ => 1 + nodeCountAll children
  | .synchronized ⟨_, _, children⟩ _ _ => 1 + nodeCountAll children
termination_by structural tree => tree

/-- The number of segments of a list of trees. -/
def nodeCountAll : List Segment → Nat
  | [] => 0
  | child :: rest => nodeCount child + nodeCountAll rest
termination_by structural trees => trees
end

/-- Induction over trees with a hypothesis for every child of the merged and of
the former side. -/
theorem tree_induction {motive : Segment → Prop}
    (literal : ∀ id content, motive (.literal id content))
    (editable : ∀ id content, motive (.editable id content))
    (composite : ∀ id children, (∀ child ∈ children, motive child) →
      motive (.composite id children))
    (region : ∀ list : Region Segment, (∀ child ∈ list.children, motive child) →
      motive (.region list))
    (synchronized : ∀ (merged : Region Segment) (former : Option (Region Segment)) order,
      (∀ child ∈ merged.children, motive child) →
      (∀ list, former = some list → ∀ child ∈ list.children, motive child) →
      motive (.synchronized merged former order))
    (tree : Segment) : motive tree :=
  Segment.rec (motive_1 := motive) (motive_2 := fun children => ∀ child ∈ children, motive child)
    (motive_3 := fun list => ∀ child ∈ list.children, motive child)
    (motive_4 := fun former => ∀ list, former = some list → ∀ child ∈ list.children, motive child)
    literal editable composite region synchronized
    (fun _ h => nomatch h)
    (fun _ _ head tail child h => (List.mem_cons.1 h).elim (fun e => e ▸ head) (tail child))
    (fun _ _ _ h => h)
    (fun _ h => nomatch h)
    (fun _ h _ e => Option.some.inj e ▸ h)
    tree

end Segment

end Regeneration
