import Regeneration.Merge.Basic

/-!
# What a merge reports

A merge can be followed event by event. The events of a child's merge come
before those by which its list region tells what it dropped and how it was
ordered.
-/

set_option autoImplicit false

namespace Regeneration

/-- Something a merge did that is worth telling. -/
inductive MergeEvent where
  | ignoredFormer (before : SegmentKind) (id : String) (now : SegmentKind)
  | newChild (id parent : String)
  | changedKind (id parent : String)
  | dropped (id parent : String)
  | ordered (id : String) (policy : OrderPolicy)
  deriving DecidableEq, Repr

/-- The text of an event. -/
def MergeEvent.message : MergeEvent → String
  | .ignoredFormer before id now =>
    s!"Ignoring previous {before.name} {id}: now generated as {now.name}"
  | .newChild id parent => s!"New child {id} in {parent}"
  | .changedKind id parent => s!"Child {id} in {parent} changed kind; treated as new"
  | .dropped id parent => s!"Dropping {id} from {parent}: no longer generated"
  | .ordered id policy => s!"Ordered {id} by {policy.name} policy"

namespace Segment

/-- Tells that a former segment is of no use; a literal never needs one. -/
def ignoredEvents (now : Segment) (before : Option Segment) : List MergeEvent :=
  match before with
  | none => []
  | some former =>
    if sameShape now.kind former.kind || now.kind == .literal then []
    else [.ignoredFormer former.kind former.id now.kind]

/-- Tells that a list region's child has no former place. -/
def introducedEvents (parent : String) (child : Segment) (before : Option Segment) :
    List MergeEvent :=
  match before with
  | none => [.newChild child.id parent]
  | some former =>
    if sameShape child.kind former.kind then [] else [.changedKind child.id parent]

/-- Tells what a list region dropped and how it was ordered. -/
def closingEvents (id : String) (policy : OrderPolicy) (children former : Children) :
    List MergeEvent :=
  (former.filter fun gone => !children.contains gone.id).map (fun gone => .dropped gone.id id)
    ++ [.ordered id policy]

mutual
/-- The events of a merge, in order. -/
def mergeLog : Segment → Option Segment → List MergeEvent
  | .literal .., _ => []
  | .editable id content, before => ignoredEvents (.editable id content) before
  | .composite id children, before =>
    ignoredEvents (.composite id children) before
      ++ ((mergeLogEach none children (formerChildren before)).map Prod.snd).flatten
  | .region ⟨id, policy, children⟩, before =>
    let former := formerList (before.bind asRegion?)
    ignoredEvents (.region ⟨id, policy, children⟩) before
      ++ ((mergeLogEach (some id) children former).map Prod.snd).flatten
      ++ closingEvents id policy children former
  | .synchronized ⟨id, policy, children⟩ past order, before =>
    let former := formerList (before.bind asRegion?)
    ignoredEvents (.synchronized ⟨id, policy, children⟩ past order) before
      ++ ((Keyed.arrange Prod.fst order (mergeLogEach (some id) children former)).map
        Prod.snd).flatten
      ++ closingEvents id policy children former
termination_by structural tree => tree

/-- The events of each child's merge with the child's id. The children of a list
region first tell whether they are new to it. -/
def mergeLogEach (list : Option String) :
    List Segment → Children → List (String × List MergeEvent)
  | [], _ => []
  | child :: rest, former =>
    let before := former.get? child.id
    let introduced := match list with
      | some parent => introducedEvents parent child before
      | none => []
    (child.id, introduced ++ mergeLog child before) :: mergeLogEach list rest former
termination_by structural trees => trees
end

end Segment

end Regeneration
