import Regeneration.Sorted

/-!
# JSON values

An object keeps its members as they were written, repeated names included.
`canonical` is the value as it is kept as a document: members sorted by name, the
last of several members of one name.

Numbers that are whole and fit 64 bits, signed or unsigned, are kept as they
are; the others are floating-point numbers.

Main statement: `canonical_object`, what keeping an object does to it.
-/

set_option autoImplicit false

namespace Regeneration.Json

/-- A number of a JSON text. -/
inductive Number where
  | natural (value : Nat)
  /-- The number `-(value + 1)`. -/
  | negative (value : Nat)
  | real (value : Float)

/-- A JSON value with the members of its objects as written. -/
inductive Value where
  | null
  | bool (value : Bool)
  | number (value : Number)
  | string (value : String)
  | array (items : List Value)
  | object (members : List (String × Value))

instance : Inhabited Value := ⟨.null⟩

mutual
/-- The value with every object's members sorted by name and the last member of
a name kept. -/
def Value.canonical : Value → Value
  | .null => .null
  | .bool value => .bool value
  | .number value => .number value
  | .string value => .string value
  | .array items => .array (canonicalItems items)
  | .object members => .object (Sorted.ofList Prod.fst (canonicalMembers members))
termination_by structural value => value

/-- The canonical items of an array. -/
def Value.canonicalItems : List Value → List Value
  | [] => []
  | item :: rest => item.canonical :: canonicalItems rest
termination_by structural items => items

/-- The members of an object with canonical values, as written. -/
def Value.canonicalMembers : List (String × Value) → List (String × Value)
  | [] => []
  | (name, value) :: rest => (name, value.canonical) :: canonicalMembers rest
termination_by structural members => members
end

/-- A kept object has its members in order. -/
theorem canonical_object (members : List (String × Value)) :
    ∃ sorted, (Value.object members).canonical = .object sorted ∧
      Sorted.Increasing Prod.fst sorted :=
  ⟨_, rfl, Sorted.increasing_ofList _⟩

end Regeneration.Json
