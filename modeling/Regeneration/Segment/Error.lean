import Regeneration.Segment.Address

/-!
# What can be wrong with a segment tree

Absence of a child is never an error. These causes cover trees that would break
their own rules, edits aimed at the wrong place, and addresses that do not read.
-/

set_option autoImplicit false

namespace Regeneration

/-- Why a requested order is not an order of the children. -/
inductive OrderFault where
  | repeated (id : String)
  | incomplete (placed total : Nat)
  deriving DecidableEq, Repr

/-- Causes of failure while building, ordering or editing a tree. -/
inductive SegmentError where
  | duplicateChild (parent id : String)
  | unknownChild (parent id : String)
  | invalidOrder (id : String) (fault : OrderFault)
  | notEditable (target : Address)
  | notFound (target : Address)
  | emptyId (text : String)
  deriving DecidableEq, Repr

/-- The reason given for an order that was refused. -/
def OrderFault.message : OrderFault → String
  | .repeated id => s!"'{id}' appears more than once"
  | .incomplete placed total => s!"{placed} of {total} children placed"

/-- The text of an error. -/
def SegmentError.message : SegmentError → String
  | .duplicateChild parent id => s!"duplicate child '{id}' in segment '{parent}'"
  | .unknownChild parent id => s!"segment '{parent}' has no child '{id}'"
  | .invalidOrder id fault => s!"invalid child order for segment '{id}': {fault.message}"
  | .notEditable target => s!"segment at '{target.text}' does not hold editable content"
  | .notFound target => s!"no segment at '{target.text}'"
  | .emptyId text => s!"invalid segment path: empty id in '{text}'"

/-- Reads a dotted address; the only fault is an empty id. -/
def Address.read (text : String) : Except SegmentError Address :=
  match ofText? text with
  | some address => .ok address
  | none => .error (.emptyId text)

end Regeneration
