import Regeneration.Json.Document
import Regeneration.Proofs.Json.Spelling
import Regeneration.Proofs.Outcome

/-!
# What was read

What a reader of lists, members or documents gave was given by the readers it was made
of. A value that was read is nested no deeper than its reader may open arrays and
objects.

Main statements: `mem_elements`, `mem_members`, `fieldsFrom_induction` and
`fits_of_value`.
-/

set_option autoImplicit false

namespace Regeneration.Json

open Outcome

variable {α : Type}

/-! ## Lists and members -/

/-- Placing a problem leaves a result as it is. -/
theorem placed_eq_ok {close : List Char → List Char} {outcome : Except Fault α} {result : α}
    (h : placed close outcome = .ok result) : outcome = .ok result := by
  rw [placed.eq_def] at h
  split at h
  · exact h
  · cases h
  · exact h

/-- Every element of a list was read as an element. -/
theorem mem_elements {item : Reader α} {bound : Nat} {first : Bool} {text rest : List Char}
    {items : List α} (h : elements item bound first text = .ok (items, rest)) :
    ∀ found ∈ items, ∃ before after, item before = .ok (found, after) := by
  induction bound generalizing first text items with
  | zero => cases h
  | succ bound ih =>
      rw [elements] at h
      obtain ⟨next, -, h⟩ := bind_eq_ok.1 h
      cases next with
      | stop =>
          cases h
          exact fun _ hm => nomatch hm
      | more before =>
          obtain ⟨⟨head, after⟩, hhead, h⟩ := bind_eq_ok.1 h
          obtain ⟨⟨tail, last⟩, htail, h⟩ := bind_eq_ok.1 h
          cases h
          intro found hm
          rcases List.mem_cons.1 hm with rfl | hm
          · exact ⟨before, after, hhead⟩
          · exact ih htail found hm

/-- Every member of an object was read as a member of its name. -/
theorem mem_members {member : String → Reader α} {bound : Nat} {first : Bool}
    {text rest : List Char} {found : List (String × α)}
    (h : members member bound first text = .ok (found, rest)) :
    ∀ one ∈ found, ∃ before after, member one.1 before = .ok (one.2, after) := by
  induction bound generalizing first text found with
  | zero => cases h
  | succ bound ih =>
      rw [members] at h
      obtain ⟨next, -, h⟩ := bind_eq_ok.1 h
      cases next with
      | stop =>
          cases h
          exact fun _ hm => nomatch hm
      | more _ =>
          obtain ⟨⟨name, behind⟩, -, h⟩ := bind_eq_ok.1 h
          obtain ⟨before, -, h⟩ := bind_eq_ok.1 h
          obtain ⟨⟨head, after⟩, hhead, h⟩ := bind_eq_ok.1 h
          obtain ⟨⟨tail, last⟩, htail, h⟩ := bind_eq_ok.1 h
          cases h
          intro one hm
          rcases List.mem_cons.1 hm with rfl | hm
          · exact ⟨before, after, hhead⟩
          · exact ih htail one hm

/-! ## Documents -/

/-- What every known member keeps holds of all that was read. -/
theorem fieldsFrom_induction {known : String → Option (α → Reader α)} {P : α → Prop}
    (step : ∀ {name take held text after rest}, known name = some take → P held →
      take held text = .ok (after, rest) → P after)
    {bound : Nat} {first : Bool} {held after : α} {text rest : List Char} (hheld : P held)
    (h : fieldsFrom known bound first held text = .ok (after, rest)) : P after := by
  induction bound generalizing first held text with
  | zero => cases h
  | succ bound ih =>
      rw [fieldsFrom] at h
      obtain ⟨next, -, h⟩ := bind_eq_ok.1 h
      cases next with
      | stop =>
          cases h
          exact hheld
      | more =>
          obtain ⟨⟨name, _⟩, -, h⟩ := bind_eq_ok.1 h
          simp only at h
          split at h
          · next take hknown =>
              obtain ⟨⟨middle, _⟩, htake, h⟩ := bind_eq_ok.1 h
              exact ih (step hknown hheld htake) h
          · obtain ⟨_, -, h⟩ := bind_eq_ok.1 h
            obtain ⟨_, -, h⟩ := bind_eq_ok.1 h
            exact ih hheld h

/-- A known member that was read was read by its reader. -/
theorem field_eq_ok {name : String} {held : Option α} {reader : Reader α}
    {text rest : List Char} {found : α} (h : field name held reader text = .ok (some found, rest)) :
    ∃ before, reader before = .ok (found, rest) := by
  cases held with
  | some => cases h
  | none =>
      obtain ⟨before, -, h⟩ := bind_eq_ok.1 h
      obtain ⟨⟨read, _⟩, hread, h⟩ := bind_eq_ok.1 h
      cases h
      exact ⟨before, hread⟩

theorem required_eq_ok {name : String} {held : Option α} {text rest : List Char} {found : α}
    (h : required name held text = .ok (found, rest)) : held = some found := by
  cases held with
  | none => cases h
  | some =>
      cases h
      rfl

/-- What was read of a document was read by one of its two readers. -/
theorem document_eq_ok {object array : Reader α} {text rest : List Char} {found : α}
    (h : document object array text = .ok (found, rest)) :
    ∃ inner, object inner = .ok (found, rest) ∨ array inner = .ok (found, rest) := by
  rw [document] at h
  split at h
  · cases h
  · next inner _ =>
      split at h
      · exact ⟨inner, .inl (placed_eq_ok h)⟩
      · split at h
        · exact ⟨inner, .inr (placed_eq_ok h)⟩
        · cases h

/-- Every member of a table was read by its reader. -/
theorem mem_table {reader : Reader α} {text rest : List Char} {found : List (String × α)}
    (h : table reader text = .ok (found, rest)) :
    ∀ one ∈ found, ∃ before after, reader before = .ok (one.2, after) := by
  rw [table] at h
  split at h
  · cases h
  · split at h
    · exact mem_members (placed_eq_ok h)
    · cases h

theorem readAll_eq_ok {reader : Reader α} {text : String} {found : α}
    (h : readAll reader text = .ok found) : ∃ rest, reader text.toList = .ok (found, rest) := by
  rw [readAll] at h
  split at h
  · cases h
  · next rest hr =>
      split at h
      · cases h
      · cases h
        exact ⟨rest, hr⟩

/-! ## Values -/

/-- What can be read: a value that opens nothing, an array or an object. -/
theorem value_eq_ok {depth : Nat} {text rest : List Char} {found : Value}
    (h : value depth text = .ok (found, rest)) :
    (∀ limit, found.Fits limit) ∨
    (∃ less items inner, depth = less + 1 ∧ found = .array items ∧
      array (value less) inner = .ok (items, rest)) ∨
    (∃ less members inner, depth = less + 1 ∧ found = .object members ∧
      object (fun _ => value less) inner = .ok (members, rest)) := by
  rw [value.eq_def] at h
  simp only at h
  split at h
  · cases h
  · split at h
    · obtain ⟨_, -, h⟩ := bind_eq_ok.1 h
      cases h
      exact .inl .null
    split at h
    · obtain ⟨_, -, h⟩ := bind_eq_ok.1 h
      cases h
      exact .inl fun limit => .bool limit _
    split at h
    · obtain ⟨_, -, h⟩ := bind_eq_ok.1 h
      cases h
      exact .inl fun limit => .bool limit _
    split at h
    · obtain ⟨_, -, h⟩ := bind_eq_ok.1 h
      cases h
      exact .inl fun limit => .number limit _
    split at h
    · obtain ⟨_, -, h⟩ := bind_eq_ok.1 h
      cases h
      exact .inl fun limit => .number limit _
    split at h
    · obtain ⟨_, -, h⟩ := bind_eq_ok.1 h
      cases h
      exact .inl fun limit => .string limit _
    split at h
    · split at h
      · cases h
      · next less =>
          obtain ⟨⟨items, after⟩, hitems, h⟩ := bind_eq_ok.1 h
          cases h
          exact .inr (.inl ⟨less, items, _, rfl, rfl, hitems⟩)
    split at h
    · split at h
      · cases h
      · next less =>
          obtain ⟨⟨members, after⟩, hmembers, h⟩ := bind_eq_ok.1 h
          cases h
          exact .inr (.inr ⟨less, members, _, rfl, rfl, hmembers⟩)
    · cases h

/-- **What was read fits the limit it was read with.** -/
theorem fits_of_value {depth : Nat} {text rest : List Char} {found : Value}
    (h : value depth text = .ok (found, rest)) : found.Fits depth := by
  induction depth generalizing text rest found with
  | zero =>
      rcases value_eq_ok h with hscalar | ⟨_, _, _, hless, -, -⟩ | ⟨_, _, _, hless, -, -⟩
      · exact hscalar 0
      · cases hless
      · cases hless
  | succ depth ih =>
      rcases value_eq_ok h with hscalar | ⟨_, items, inner, hless, rfl, hitems⟩ |
        ⟨_, members, inner, hless, rfl, hmembers⟩
      · exact hscalar (depth + 1)
      · cases hless
        refine .array fun item hm => ?_
        obtain ⟨_, _, hitem⟩ := mem_elements hitems item hm
        exact ih hitem
      · cases hless
        refine .object fun member hm => ?_
        obtain ⟨_, _, hmember⟩ := mem_members hmembers member hm
        exact ih hmember

end Regeneration.Json
