import Regeneration.Json.Reader
import Regeneration.Json.Writer

/-!
# Texts of values with any blanks

The compact and the indented text of a value differ in the blanks they put in front
of elements, members and closing brackets. `Value.spell` writes with any such
blanks.

Main statements: `write_eq_spell` and `writeIndented_eq_spell`, the two texts as
spellings.
-/

set_option autoImplicit false

namespace Regeneration.Json

/-! ## Values that can be read back -/

/-- Values with at most so many arrays and objects open in one another. -/
inductive Value.Fits : Nat → Value → Prop where
  | null (depth : Nat) : Fits depth .null
  | bool (depth : Nat) (value : Bool) : Fits depth (.bool value)
  | number (depth : Nat) (value : Number) : Fits depth (.number value)
  | string (depth : Nat) (text : String) : Fits depth (.string text)
  | array {depth : Nat} {items : List Value} (each : ∀ item ∈ items, Fits depth item) :
      Fits (depth + 1) (.array items)
  | object {depth : Nat} {members : List (String × Value)}
      (each : ∀ member ∈ members, Fits depth member.2) : Fits (depth + 1) (.object members)

/-- Values in which no number occurs. -/
inductive Value.NumberFree : Value → Prop where
  | null : NumberFree .null
  | bool (value : Bool) : NumberFree (.bool value)
  | string (text : String) : NumberFree (.string text)
  | array {items : List Value} (each : ∀ item ∈ items, NumberFree item) :
      NumberFree (.array items)
  | object {members : List (String × Value)}
      (each : ∀ member ∈ members, NumberFree member.2) : NumberFree (.object members)

/-- A value that fits a limit fits a higher one. -/
theorem Value.Fits.mono {depth limit : Nat} {value : Value} (h : value.Fits depth)
    (hle : depth ≤ limit) : value.Fits limit := by
  induction h generalizing limit with
  | null => exact .null limit
  | bool _ value => exact .bool limit value
  | number _ value => exact .number limit value
  | string _ text => exact .string limit text
  | array _ ih =>
      obtain ⟨limit, rfl⟩ : ∃ below, limit = below + 1 := ⟨limit - 1, by omega⟩
      exact .array fun item hm => ih item hm (by omega)
  | object _ ih =>
      obtain ⟨limit, rfl⟩ : ∃ below, limit = below + 1 := ⟨limit - 1, by omega⟩
      exact .object fun member hm => ih member hm (by omega)

/-! ## Writing with any blanks -/

/-- The blanks of a written text. -/
structure Spacing where
  /-- What precedes an element, a member or a closing bracket at a level. -/
  line : Nat → List Char
  /-- What precedes the value of a member. -/
  gap : List Char
  line_blank : ∀ level, ∀ c ∈ line level, isBlank c = true
  gap_blank : ∀ c ∈ gap, isBlank c = true

/-- No blanks at all. -/
def Spacing.compact : Spacing where
  line _ := []
  gap := []
  line_blank _ _ h := nomatch h
  gap_blank _ h := nomatch h

/-- A line for every element and member, and one blank behind a colon. -/
def Spacing.indented : Spacing where
  line level := newLine level []
  gap := [' ']
  line_blank level c h := by
    simp only [newLine, List.append_nil, List.mem_cons, List.mem_replicate] at h
    rcases h with rfl | ⟨-, rfl⟩ <;> rfl
  gap_blank c h := by
    rw [List.mem_singleton.1 h]
    rfl

theorem newLine_eq_append (level : Nat) (tail : List Char) :
    newLine level tail = Spacing.indented.line level ++ tail := by
  simp [newLine, Spacing.indented]

/-- Further items, each behind a comma and the blanks of a level, when `write` puts an
item in front of a tail. -/
def Spacing.further {α : Type} (spacing : Spacing) (level : Nat)
    (write : α → List Char → List Char) : List α → List Char → List Char
  | [], tail => tail
  | item :: rest, tail =>
    ',' :: (spacing.line level ++ write item (further spacing level write rest tail))

theorem Spacing.further_map {α β : Type} (spacing : Spacing) (level : Nat) (f : α → β)
    (write : β → List Char → List Char) (items : List α) (tail : List Char) :
    spacing.further level write (items.map f) tail
      = spacing.further level (fun a => write (f a)) items tail := by
  induction items with
  | nil => rfl
  | cons a rest ih => rw [List.map_cons, Spacing.further, Spacing.further, ih]

/-- A member in front of a tail, when `write` puts its value there. -/
def Spacing.member (spacing : Spacing) (name : String) (write : List Char → List Char)
    (tail : List Char) : List Char :=
  Quoted.write name (':' :: (spacing.gap ++ write tail))

/-- Further members, each with its name. -/
def Spacing.furtherMembers {α : Type} (spacing : Spacing) (level : Nat) (name : α → String)
    (write : α → List Char → List Char) : List α → List Char → List Char :=
  spacing.further level fun a => spacing.member (name a) (write a)

mutual
/-- The text of a value at a level in front of a tail. -/
def Value.spell (spacing : Spacing) (level : Nat) : Value → List Char → List Char
  | .null, tail => 'n' :: 'u' :: 'l' :: 'l' :: tail
  | .bool true, tail => 't' :: 'r' :: 'u' :: 'e' :: tail
  | .bool false, tail => 'f' :: 'a' :: 'l' :: 's' :: 'e' :: tail
  | .number n, tail => n.write tail
  | .string text, tail => Quoted.write text tail
  | .array [], tail => '[' :: ']' :: tail
  | .array (item :: rest), tail =>
    '[' :: (spacing.line (level + 1) ++ item.spell spacing (level + 1)
      (spellItems spacing (level + 1) rest (spacing.line level ++ ']' :: tail)))
  | .object [], tail => '\x7b' :: '\x7d' :: tail
  | .object ((name, value) :: rest), tail =>
    '\x7b' :: (spacing.line (level + 1) ++ spacing.member name (value.spell spacing (level + 1))
      (spellMembers spacing (level + 1) rest (spacing.line level ++ '\x7d' :: tail)))
termination_by structural value => value

/-- Further items, each behind a comma. -/
def Value.spellItems (spacing : Spacing) (level : Nat) : List Value → List Char → List Char
  | [], tail => tail
  | item :: rest, tail =>
    ',' :: (spacing.line level ++ item.spell spacing level (spellItems spacing level rest tail))
termination_by structural items => items

/-- Further members, each behind a comma. -/
def Value.spellMembers (spacing : Spacing) (level : Nat) :
    List (String × Value) → List Char → List Char
  | [], tail => tail
  | (name, value) :: rest, tail =>
    ',' :: (spacing.line level ++ spacing.member name (value.spell spacing level)
      (spellMembers spacing level rest tail))
termination_by structural members => members
end

theorem spellItems_eq_further (spacing : Spacing) (level : Nat) (items : List Value) :
    Value.spellItems spacing level items
      = spacing.further level (Value.spell spacing level) items := by
  funext tail
  induction items with
  | nil => rfl
  | cons item rest ih => rw [Value.spellItems, ih, Spacing.further]

theorem spellMembers_eq_furtherMembers (spacing : Spacing) (level : Nat)
    (members : List (String × Value)) :
    Value.spellMembers spacing level members
      = spacing.furtherMembers level Prod.fst (fun member => member.2.spell spacing level)
          members := by
  funext tail
  induction members with
  | nil => rfl
  | cons member rest ih => rw [Value.spellMembers, ih, Spacing.furtherMembers, Spacing.further]

/-! ## The two texts of a value -/

mutual
/-- The compact text is spelled without blanks. -/
theorem write_eq_spell : ∀ (value : Value) (level : Nat) (tail : List Char),
    value.write tail = value.spell .compact level tail
  | .null, _, _ | .bool true, _, _ | .bool false, _, _ | .number _, _, _ | .string _, _, _ => rfl
  | .array [], _, _ | .object [], _, _ => rfl
  | .array (item :: rest), level, tail => by
      rw [Value.write, Value.writeItems, Value.spell, write_eq_spell item (level + 1),
        writeItems_eq_spellItems rest (level + 1)]
      rfl
  | .object ((name, value) :: rest), level, tail => by
      rw [Value.write, Value.writeMembers, Value.spell, write_eq_spell value (level + 1),
        writeMembers_eq_spellMembers rest (level + 1)]
      rfl

theorem writeItems_eq_spellItems : ∀ (items : List Value) (level : Nat) (tail : List Char),
    Value.writeItems false items tail = Value.spellItems .compact level items tail
  | [], _, _ => rfl
  | item :: rest, level, tail => by
      rw [Value.writeItems, Value.spellItems, write_eq_spell item level,
        writeItems_eq_spellItems rest level]
      rfl

theorem writeMembers_eq_spellMembers :
    ∀ (members : List (String × Value)) (level : Nat) (tail : List Char),
      Value.writeMembers false members tail = Value.spellMembers .compact level members tail
  | [], _, _ => rfl
  | (name, value) :: rest, level, tail => by
      rw [Value.writeMembers, Value.spellMembers, write_eq_spell value level,
        writeMembers_eq_spellMembers rest level]
      rfl
end

mutual
/-- The indented text is spelled with lines. -/
theorem writeIndented_eq_spell : ∀ (value : Value) (level : Nat) (tail : List Char),
    value.writeIndented level tail = value.spell .indented level tail
  | .null, _, _ | .bool true, _, _ | .bool false, _, _ | .number _, _, _ | .string _, _, _ => rfl
  | .array [], _, _ | .object [], _, _ => rfl
  | .array (item :: rest), level, tail => by
      rw [Value.writeIndented, Value.spell, writeIndented_eq_spell item,
        writeIndentedItems_eq_spellItems rest, newLine_eq_append, newLine_eq_append]
  | .object ((name, value) :: rest), level, tail => by
      rw [Value.writeIndented, Value.spell, writeIndented_eq_spell value,
        writeIndentedMembers_eq_spellMembers rest, newLine_eq_append, newLine_eq_append]
      rfl

theorem writeIndentedItems_eq_spellItems :
    ∀ (items : List Value) (level : Nat) (tail : List Char),
      Value.writeIndentedItems level items tail = Value.spellItems .indented level items tail
  | [], _, _ => rfl
  | item :: rest, level, tail => by
      rw [Value.writeIndentedItems, Value.spellItems, writeIndented_eq_spell item,
        writeIndentedItems_eq_spellItems rest, newLine_eq_append]

theorem writeIndentedMembers_eq_spellMembers :
    ∀ (members : List (String × Value)) (level : Nat) (tail : List Char),
      Value.writeIndentedMembers level members tail
        = Value.spellMembers .indented level members tail
  | [], _, _ => rfl
  | (name, value) :: rest, level, tail => by
      rw [Value.writeIndentedMembers, Value.spellMembers, writeIndented_eq_spell value,
        writeIndentedMembers_eq_spellMembers rest, newLine_eq_append]
      rfl
end

end Regeneration.Json
