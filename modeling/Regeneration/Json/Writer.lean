import Regeneration.Decimal.Shortest
import Regeneration.Json.Quoted
import Regeneration.Json.Value

/-!
# Writing JSON

A value is written in front of a tail, so that long texts are put together from
their ends. The compact text has no blanks. The indented text has one element or
member a line, two blanks for each level, and one blank behind the colon; empty
arrays and objects stay on their line.
-/

set_option autoImplicit false

namespace Regeneration.Json

/-- Floating-point numbers are written with the fewest digits that read back:
with a point from a hundred-thousandth to below ten to the sixteenth, and with a
signed exponent beyond. -/
def numberFormat : Decimal.Format where
  leastExponent := -5
  greatestExponent := 15

/-- A number in front of a tail. -/
def Number.write (number : Number) (tail : List Char) : List Char :=
  match number with
  | .natural value => Nat.toDigits 10 value ++ tail
  | .negative value => '-' :: (Nat.toDigits 10 (value + 1) ++ tail)
  | .real value => Decimal.format numberFormat value ++ tail

mutual
/-- The compact text of a value in front of a tail. -/
def Value.write : Value → List Char → List Char
  | .null, tail => 'n' :: 'u' :: 'l' :: 'l' :: tail
  | .bool true, tail => 't' :: 'r' :: 'u' :: 'e' :: tail
  | .bool false, tail => 'f' :: 'a' :: 'l' :: 's' :: 'e' :: tail
  | .number n, tail => n.write tail
  | .string text, tail => Quoted.write text tail
  | .array items, tail => '[' :: writeItems true items (']' :: tail)
  | .object members, tail => '\x7b' :: writeMembers true members ('\x7d' :: tail)
termination_by structural value => value

/-- Items with a comma before each but the first. -/
def Value.writeItems : Bool → List Value → List Char → List Char
  | _, [], tail => tail
  | true, item :: rest, tail => item.write (writeItems false rest tail)
  | false, item :: rest, tail => ',' :: item.write (writeItems false rest tail)
termination_by structural _ items => items

/-- Members with a comma before each but the first. -/
def Value.writeMembers : Bool → List (String × Value) → List Char → List Char
  | _, [], tail => tail
  | true, (name, value) :: rest, tail =>
    Quoted.write name (':' :: value.write (writeMembers false rest tail))
  | false, (name, value) :: rest, tail =>
    ',' :: Quoted.write name (':' :: value.write (writeMembers false rest tail))
termination_by structural _ members => members
end

/-- A new line with the blanks of a level. -/
def newLine (level : Nat) (tail : List Char) : List Char :=
  '\n' :: (List.replicate (2 * level) ' ' ++ tail)

mutual
/-- The indented text of a value at a level in front of a tail. -/
def Value.writeIndented (level : Nat) : Value → List Char → List Char
  | .null, tail => 'n' :: 'u' :: 'l' :: 'l' :: tail
  | .bool true, tail => 't' :: 'r' :: 'u' :: 'e' :: tail
  | .bool false, tail => 'f' :: 'a' :: 'l' :: 's' :: 'e' :: tail
  | .number n, tail => n.write tail
  | .string text, tail => Quoted.write text tail
  | .array [], tail => '[' :: ']' :: tail
  | .array (item :: rest), tail =>
    '[' :: newLine (level + 1) (item.writeIndented (level + 1)
      (writeIndentedItems (level + 1) rest (newLine level (']' :: tail))))
  | .object [], tail => '\x7b' :: '\x7d' :: tail
  | .object ((name, value) :: rest), tail =>
    '\x7b' :: newLine (level + 1) (Quoted.write name (':' :: ' ' ::
      value.writeIndented (level + 1)
        (writeIndentedMembers (level + 1) rest (newLine level ('\x7d' :: tail)))))
termination_by structural value => value

/-- Further items of an array, each behind a comma on a line of its own. -/
def Value.writeIndentedItems (level : Nat) : List Value → List Char → List Char
  | [], tail => tail
  | item :: rest, tail =>
    ',' :: newLine level (item.writeIndented level (writeIndentedItems level rest tail))
termination_by structural items => items

/-- Further members of an object, each behind a comma on a line of its own. -/
def Value.writeIndentedMembers (level : Nat) : List (String × Value) → List Char → List Char
  | [], tail => tail
  | (name, value) :: rest, tail =>
    ',' :: newLine level (Quoted.write name (':' :: ' ' ::
      value.writeIndented level (writeIndentedMembers level rest tail)))
termination_by structural members => members
end

/-- The compact text of a value. -/
def Value.compact (value : Value) : String := String.ofList (value.write [])

/-- The indented text of a value. -/
def Value.indented (value : Value) : String := String.ofList (value.writeIndented 0 [])

end Regeneration.Json
