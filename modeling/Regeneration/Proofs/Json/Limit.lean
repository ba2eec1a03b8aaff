import Regeneration.Proofs.Json.Reading

/-!
# Reading with a lower limit

The limit on open arrays and objects does one thing only: a text that goes beyond it is
refused as too deep. With a lower limit a reader either does what it does with a higher
one, or it refuses in this way. That holds of single steps, and it passes through
sequences of steps, lists and members to whole values.

Main statements: `Curtails.bind`, `curtails_value` and `readAll_of_curtails`.
-/

set_option autoImplicit false

namespace Regeneration.Json

/-- The first outcome is the second, or a text that is too deep was refused. -/
def Curtails {α : Type} (low high : Except Fault α) : Prop :=
  low = high ∨ ∃ mark rest, low = .error ⟨.tooDeep, mark, rest⟩

section Steps

variable {α β : Type} {low high : Except Fault α}

theorem Curtails.refl (outcome : Except Fault α) : Curtails outcome outcome := .inl rfl

theorem Curtails.of_tooDeep (mark : Mark) (rest : List Char) (high : Except Fault α) :
    Curtails (.error ⟨.tooDeep, mark, rest⟩) high := .inr ⟨mark, rest, rfl⟩

/-- **A sequence of two steps is curtailed if its steps are.** -/
theorem Curtails.bind (h : Curtails low high) {next further : α → Except Fault β}
    (hnext : ∀ result, Curtails (next result) (further result)) :
    Curtails (low >>= next) (high >>= further) := by
  rcases h with rfl | ⟨mark, rest, rfl⟩
  · cases low with
    | error fault => exact .refl _
    | ok result => exact hnext result
  · exact .of_tooDeep mark rest _

/-- A step in common may come first. -/
theorem Curtails.same_bind {step : Except Fault α} {next further : α → Except Fault β}
    (hnext : ∀ result, Curtails (next result) (further result)) :
    Curtails (step >>= next) (step >>= further) := (Curtails.refl step).bind hnext

/-- A step in common may follow. -/
theorem Curtails.bind_same (h : Curtails low high) (next : α → Except Fault β) :
    Curtails (low >>= next) (high >>= next) :=
  h.bind fun result => .refl (next result)

theorem Curtails.map (h : Curtails low high) (f : α → β) :
    Curtails (low.map f) (high.map f) := by
  rcases h with rfl | ⟨mark, rest, rfl⟩
  · exact .refl _
  · exact .of_tooDeep mark rest _

/-- Giving a problem its place does not change what it is. -/
theorem Curtails.placed (h : Curtails low high) (close : List Char → List Char) :
    Curtails (Json.placed close low) (Json.placed close high) := by
  rcases h with rfl | ⟨mark, rest, rfl⟩
  · exact .refl _
  · cases mark with
    | unplaced => exact .of_tooDeep .here (close rest) _
    | here => exact .of_tooDeep .here rest _
    | ahead => exact .of_tooDeep .ahead rest _

end Steps

/-- A reader that does what the other does or refuses a text as too deep. -/
def CurtailsReader {α : Type} (low high : Reader α) : Prop := ∀ text, Curtails (low text) (high text)

section Lists

variable {α : Type}

/-- The elements of a list are read one after another, so a curtailed reader of elements
makes a curtailed reader of lists. -/
theorem curtails_elements {item other : Reader α} (h : CurtailsReader item other)
    (bound : Nat) (first : Bool) :
    CurtailsReader (elements item bound first) (elements other bound first) := by
  induction bound generalizing first with
  | zero => exact fun text => .refl _
  | succ bound ih =>
      intro text
      rw [elements, elements]
      apply Curtails.same_bind
      intro next
      cases next with
      | stop rest => exact .refl _
      | more rest =>
          apply (h rest).bind
          intro head
          exact (ih false head.2).bind_same _

theorem curtails_members {member other : String → Reader α}
    (h : ∀ name, CurtailsReader (member name) (other name)) (bound : Nat) (first : Bool) :
    CurtailsReader (members member bound first) (members other bound first) := by
  induction bound generalizing first with
  | zero => exact fun text => .refl _
  | succ bound ih =>
      intro text
      rw [members, members]
      apply Curtails.same_bind
      intro next
      cases next with
      | stop rest => exact .refl _
      | more rest =>
          apply Curtails.same_bind
          intro name
          apply Curtails.same_bind
          intro behind
          apply (h name.1 behind).bind
          intro head
          exact (ih false head.2).bind_same _

end Lists

/-! ## Values -/

/-- What opens nothing is read alike with all limits. -/
theorem value_of_closed {text : List Char} (hlist : (skipBlanks text).head? ≠ some '[')
    (hobject : (skipBlanks text).head? ≠ some '\x7b') (depth limit : Nat) :
    value depth text = value limit text := by
  rw [value.eq_def, value.eq_def]
  cases h : skipBlanks text with
  | nil => simp only [h]
  | cons c rest =>
      rw [h] at hlist hobject
      have hc : c ≠ '[' := fun he => hlist (congrArg some he)
      have hc' : c ≠ '\x7b' := fun he => hobject (congrArg some he)
      simp only [h, if_neg hc, if_neg hc']

/-- Where nothing may be opened, a bracket is too deep. -/
theorem value_zero_of_open {text rest : List Char} {c : Char} (h : skipBlanks text = c :: rest)
    (hc : c = '[' ∨ c = '\x7b') : value 0 text = .error ⟨.tooDeep, .ahead, c :: rest⟩ := by
  rw [value.eq_def]
  rcases hc with rfl | rfl
  · simp only [h]
    rfl
  · simp only [h]
    rfl

/-- **With a lower limit a value is read alike, or it is too deep.** -/
theorem curtails_value {depth limit : Nat} (hle : depth ≤ limit) :
    CurtailsReader (value depth) (value limit) := by
  induction depth generalizing limit with
  | zero =>
      -- no bracket may be opened, and without one the limit does not matter
      intro text
      by_cases hlist : (skipBlanks text).head? = some '['
      · obtain ⟨rest, h⟩ := List.head?_eq_some_iff.1 hlist
        rw [value_zero_of_open h (.inl rfl)]
        exact .of_tooDeep _ _ _
      by_cases hobject : (skipBlanks text).head? = some '\x7b'
      · obtain ⟨rest, h⟩ := List.head?_eq_some_iff.1 hobject
        rw [value_zero_of_open h (.inr rfl)]
        exact .of_tooDeep _ _ _
      rw [value_of_closed hlist hobject 0 limit]
      exact .refl _
  | succ depth ih =>
      obtain ⟨limit, rfl⟩ : ∃ below, limit = below + 1 := ⟨limit - 1, by omega⟩
      have hbelow : CurtailsReader (value depth) (value limit) := ih (by omega)
      intro text
      by_cases hlist : (skipBlanks text).head? = some '['
      · obtain ⟨rest, h⟩ := List.head?_eq_some_iff.1 hlist
        rw [value_array h, value_array h]
        exact (curtails_elements hbelow _ true rest).map _
      by_cases hobject : (skipBlanks text).head? = some '\x7b'
      · obtain ⟨rest, h⟩ := List.head?_eq_some_iff.1 hobject
        rw [value_object h, value_object h]
        exact (curtails_members (fun _ => hbelow) _ true rest).map _
      rw [value_of_closed hlist hobject (depth + 1) (limit + 1)]
      exact .refl _

/-- **A whole text** is read alike with a curtailed reader, or it is refused as too
deep. -/
theorem readAll_of_curtails {α : Type} {low high : Reader α} (h : CurtailsReader low high)
    (text : String) :
    readAll low text = readAll high text ∨
      ∃ error, readAll low text = .error error ∧ error.cause = .tooDeep := by
  rcases h text.toList with hsame | ⟨mark, rest, hdeep⟩
  · left
    rw [readAll, readAll, hsame]
  · right
    refine ⟨Fault.error ⟨.tooDeep, mark, rest⟩ text.toList, ?_, rfl⟩
    rw [readAll, hdeep]

end Regeneration.Json
