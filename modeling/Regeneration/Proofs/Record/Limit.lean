import Regeneration.Proofs.Json.Limit
import Regeneration.Proofs.Record.Text

/-!
# The limit of records

A container opens an object and an array, a leaf an object only. So with at most 127 of
them open, a record is read back exactly if no more than 63 containers lie in one another;
one more, and the text that was written for it is refused as too deep.

Main statement: `read_back`.
-/

set_option autoImplicit false

namespace Regeneration.Record

open Json (Curtails CurtailsReader)

/-! ## Reading with a lower limit -/

theorem curtails_readMembers {depth limit : Nat} (hle : depth ≤ limit) (bound : Nat)
    (first : Bool) (tag : Option Tag) :
    CurtailsReader (readMembers depth bound first tag) (readMembers limit bound first tag) := by
  induction bound generalizing first tag with
  | zero => exact fun text => .refl _
  | succ bound ih =>
      intro text
      rw [readMembers, readMembers]
      apply Curtails.same_bind
      intro next
      cases next with
      | stop rest => exact .refl _
      | more rest =>
          apply Curtails.same_bind
          intro name
          by_cases htype : name.1 = "type"
          · simp only [if_pos htype]
            split
            · exact .refl _
            · apply Curtails.same_bind
              intro behind
              apply Curtails.same_bind
              intro found
              exact ih false (some found.1) found.2
          · simp only [if_neg htype]
            apply Curtails.same_bind
            intro behind
            apply (Json.curtails_value hle behind).bind
            intro found
            exact (ih false tag found.2).bind_same _

theorem curtails_readObject {depth limit : Nat} (hle : depth ≤ limit) :
    CurtailsReader (readObject depth) (readObject limit) :=
  fun text => (curtails_readMembers hle (text.length + 1) true none text).bind_same _

theorem curtails_readArray {depth limit : Nat} (hle : depth ≤ limit) :
    CurtailsReader (readArray depth) (readArray limit) := by
  intro text
  rw [readArray, readArray]
  apply Curtails.same_bind
  intro next
  cases next with
  | stop rest => exact .refl _
  | more rest =>
      apply Curtails.same_bind
      intro tag
      exact (Json.curtails_elements (Json.curtails_value hle) _ false tag.2).bind_same _

/-- **With a lower limit a record is read alike, or it is too deep.** -/
theorem curtails_read {depth limit : Nat} (hle : depth ≤ limit) :
    CurtailsReader (read depth) (read limit) := by
  intro text
  rw [read.eq_def, read.eq_def]
  cases h : Json.skipBlanks text with
  | nil => exact .refl _
  | cons c rest =>
      dsimp only
      -- an opening bracket takes one from both limits, if there is one left to take
      by_cases hobject : c = '\x7b'
      · simp only [if_pos hobject]
        cases depth with
        | zero => exact .of_tooDeep _ _ _
        | succ depth =>
            obtain ⟨limit, rfl⟩ : ∃ below, limit = below + 1 := ⟨limit - 1, by omega⟩
            have hbelow : depth ≤ limit := by omega
            exact ((curtails_readObject hbelow rest).placed _).bind_same _
      by_cases hlist : c = '['
      · simp only [if_neg hobject, if_pos hlist]
        cases depth with
        | zero => exact .of_tooDeep _ _ _
        | succ depth =>
            obtain ⟨limit, rfl⟩ : ∃ below, limit = below + 1 := ⟨limit - 1, by omega⟩
            have hbelow : depth ≤ limit := by omega
            exact ((curtails_readArray hbelow rest).placed _).bind_same _
      · simp only [if_neg hobject, if_neg hlist]
        exact .refl _

/-! ## How deep records are nested -/

mutual
/-- How many containers of a record lie in one another at most. -/
def nesting : Record → Nat
  | .literal .. | .editable .. => 0
  | .composite _ children => nestingEach children + 1
  | .region _ _ children => nestingEach children + 1
termination_by structural record => record

/-- The greatest nesting among records. -/
def nestingEach : List Record → Nat
  | [] => 0
  | record :: rest => max (nesting record) (nestingEach rest)
termination_by structural records => records
end

/-- The records on the way from a record down to one below it, both included. -/
inductive Descent : Record → List Record → Prop where
  | here (record : Record) : Descent record [record]
  | down {record child : Record} {line : List Record} (hchild : child ∈ record.children)
      (below : Descent child line) : Descent record (record :: line)

/-- How many of some records are containers. -/
def containers (line : List Record) : Nat := line.countP fun record => record.kind.isContainer

theorem nestingEach_le_iff {records : List Record} {n : Nat} :
    nestingEach records ≤ n ↔ ∀ record ∈ records, record.nesting ≤ n := by
  induction records with
  | nil => simp [nestingEach]
  | cons record rest ih => rw [nestingEach, Nat.max_le, ih, List.forall_mem_cons]

/-- A leaf has no children and no nesting, a container one more than its children. -/
theorem nesting_cases (record : Record) :
    (record.kind.isContainer = false ∧ record.children = [] ∧ record.nesting = 0) ∨
      (record.kind.isContainer = true ∧ record.nesting = nestingEach record.children + 1) := by
  cases record with
  | literal | editable => exact .inl ⟨rfl, rfl, rfl⟩
  | composite | region => exact .inr ⟨rfl, rfl⟩

theorem containers_cons_of_container {record : Record} (h : record.kind.isContainer = true)
    (line : List Record) : containers (record :: line) = containers line + 1 :=
  List.countP_cons_of_pos h

/-- No way down holds more containers than the nesting says. -/
theorem Descent.containers_le {record : Record} {line : List Record} (h : Descent record line) :
    containers line ≤ record.nesting := by
  induction h with
  | here record =>
      -- the way ends here, so the record is the only container on it
      rcases nesting_cases record with ⟨hleaf, -, hnesting⟩ | ⟨hcontainer, hnesting⟩
      · simp [containers, hleaf]
      · rw [containers_cons_of_container hcontainer, hnesting]
        simp [containers]
  | @down record child line hchild _ ih =>
      rcases nesting_cases record with ⟨-, hnone, -⟩ | ⟨hcontainer, hnesting⟩
      · rw [hnone] at hchild
        cases hchild
      · have hle := nestingEach_le_iff.1 (Nat.le_refl (nestingEach record.children)) child hchild
        rw [containers_cons_of_container hcontainer, hnesting]
        omega

/-- A bound on all ways down bounds the nesting, if it does so for the children. -/
theorem nesting_le_of_children {record : Record} {n : Nat}
    (hchildren : ∀ child ∈ record.children, ∀ n,
      (∀ line, Descent child line → containers line ≤ n) → child.nesting ≤ n)
    (h : ∀ line, Descent record line → containers line ≤ n) : record.nesting ≤ n := by
  rcases nesting_cases record with ⟨-, -, hnesting⟩ | ⟨hcontainer, hnesting⟩
  · rw [hnesting]
    exact Nat.zero_le n
  · -- the bound is positive, as the record alone is a way down with one container
    have hone := h _ (.here record)
    rw [containers_cons_of_container hcontainer] at hone
    obtain ⟨m, rfl⟩ : ∃ m, n = m + 1 := ⟨n - 1, by omega⟩
    rw [hnesting]
    apply Nat.succ_le_succ
    rw [nestingEach_le_iff]
    intro child hchild
    apply hchildren child hchild
    intro line hline
    have hbelow := h _ (.down hchild hline)
    rw [containers_cons_of_container hcontainer] at hbelow
    omega

/-- **The nesting is the greatest number of containers on a way down.** -/
theorem nesting_le_iff {record : Record} {n : Nat} :
    record.nesting ≤ n ↔ ∀ line, Descent record line → containers line ≤ n := by
  constructor
  · intro h line hline
    exact Nat.le_trans hline.containers_le h
  · induction record using record_induction generalizing n with
    | literal | editable => exact fun _ => Nat.zero_le n
    | composite id children ih =>
        apply nesting_le_of_children
        intro child hchild n
        exact ih child hchild
    | region id policy children ih =>
        apply nesting_le_of_children
        intro child hchild n
        exact ih child hchild

/-! ## Two brackets for a container, one for a leaf -/

theorem fits_children_iff {children : List Record} {n : Nat}
    (ih : ∀ child ∈ children, ∀ n, child.toValue.Fits (2 * n + 1) ↔ child.nesting ≤ n) :
    (Json.Value.array (toValues children)).Fits (2 * n) ↔ nestingEach children + 1 ≤ n := by
  rw [fits_toValues_iff]
  constructor
  · rintro ⟨less, hless, hfits⟩
    obtain ⟨m, rfl⟩ : ∃ m, n = m + 1 := ⟨n - 1, by omega⟩
    obtain rfl : less = 2 * m + 1 := by omega
    apply Nat.succ_le_succ
    rw [nestingEach_le_iff]
    intro child hchild
    exact (ih child hchild m).1 (hfits child hchild)
  · intro h
    obtain ⟨m, rfl⟩ : ∃ m, n = m + 1 := ⟨n - 1, by omega⟩
    refine ⟨2 * m + 1, by omega, ?_⟩
    intro child hchild
    rw [ih child hchild]
    exact nestingEach_le_iff.1 (Nat.le_of_succ_le_succ h) child hchild

/-- **What a record opens** is told by its nesting. -/
theorem fits_iff_nesting {record : Record} {n : Nat} :
    record.toValue.Fits (2 * n + 1) ↔ record.nesting ≤ n := by
  induction record using record_induction generalizing n with
  | literal id content => exact iff_of_true (fits_literal _ id content) (Nat.zero_le n)
  | editable id content => exact iff_of_true (fits_editable _ id content) (Nat.zero_le n)
  | composite id children ih =>
      rw [fits_composite_iff, nesting]
      exact fits_children_iff fun child hchild n => ih child hchild
  | region id policy children ih =>
      rw [fits_region_iff, nesting]
      exact fits_children_iff fun child hchild n => ih child hchild

/-! ## The limit -/

/-- A record that goes beyond the limit is refused as too deep. -/
theorem ofText_text_of_deep {record : Record} (h : ¬ record.toValue.Fits Json.nestingLimit)
    (pretty : Bool) :
    ∃ error, ofText (record.text pretty) = .error error ∧ error.cause = .tooDeep := by
  -- with a limit of its own the record is read back
  have hfits : record.toValue.Fits (2 * record.nesting + 1) :=
    fits_iff_nesting.2 (Nat.le_refl _)
  have hle : Json.nestingLimit ≤ 2 * record.nesting + 1 := by
    by_contra hlt
    exact h (hfits.mono (Nat.le_of_lt (Nat.lt_of_not_le hlt)))
  rcases Json.readAll_of_curtails (curtails_read hle) (record.text pretty) with hsame | hdeep
  · rw [readAll_text hfits pretty] at hsame
    obtain ⟨rest, hread⟩ := Json.readAll_eq_ok hsame
    exact absurd (fits_of_read hread) h
  · exact hdeep

/-- Of the records within the limit only one has a given text, so what a text reads as is
known by the text it is written as. -/
theorem ofText_eq_ok_of_text {text : String} {record : Record} (pretty : Bool)
    (hwithin : record.nesting ≤ 63)
    (h : (ofText text).map (fun found => found.text pretty) = .ok (record.text pretty)) :
    ofText text = .ok record := by
  have hfits : record.toValue.Fits Json.nestingLimit := fits_iff_nesting.2 hwithin
  cases hfound : ofText text with
  | error error =>
      rw [hfound] at h
      cases h
  | ok found =>
      rw [hfound] at h
      obtain ⟨rest, hread⟩ := Json.readAll_eq_ok hfound
      have hback := ofText_text (fits_of_read hread) pretty
      have htext : found.text pretty = record.text pretty := Except.ok.inj h
      rw [htext, ofText_text hfits pretty] at hback
      exact hback.symm

/-- **Records are read back within the limit, and only there.** If no way down from a record
holds more than 63 containers, both of its texts are read back as the record. If some way
holds 64, both are refused for being nested too deep, which is a problem of syntax. And
whatever text a record was read from, it is within the limit and read back from its own
texts. -/
theorem read_back (record : Record) :
    ((∀ line, Descent record line → containers line ≤ 63) →
      ∀ pretty, ofText (record.text pretty) = .ok record) ∧
    ((∃ line, Descent record line ∧ 64 ≤ containers line) →
      ∀ pretty, ∃ error, ofText (record.text pretty) = .error error ∧
        error.cause = .tooDeep ∧ error.category = .syntaxError) ∧
    ∀ text, ofText text = .ok record →
      (∀ line, Descent record line → containers line ≤ 63) ∧
        ∀ pretty, ofText (record.text pretty) = .ok record := by
  have hlimit : record.toValue.Fits Json.nestingLimit ↔
      ∀ line, Descent record line → containers line ≤ 63 := by
    have hbrackets : Json.nestingLimit = 2 * 63 + 1 := rfl
    rw [hbrackets, fits_iff_nesting, nesting_le_iff]
  refine ⟨?_, ?_, ?_⟩
  · intro hlines pretty
    exact ofText_text (hlimit.2 hlines) pretty
  · rintro ⟨line, hline, hdeep⟩ pretty
    have hbeyond : ¬ record.toValue.Fits Json.nestingLimit := by
      intro hfits
      have hle := hlimit.1 hfits line hline
      omega
    obtain ⟨error, herror, hcause⟩ := ofText_text_of_deep hbeyond pretty
    refine ⟨error, herror, hcause, ?_⟩
    rw [Json.Error.category, hcause]
    rfl
  · -- reading opened no more brackets than the limit, so writing will not either
    intro text htext
    obtain ⟨rest, hread⟩ := Json.readAll_eq_ok htext
    have hfits := fits_of_read hread
    exact ⟨hlimit.1 hfits, ofText_text hfits⟩

/-! ## Towers of containers -/

/-- A leaf with a quote and a line break in its content below so many containers. -/
def tower : Nat → Record
  | 0 => .editable "leaf" "\"\n"
  | height + 1 => .region "floor" .preserve [tower height]

theorem nesting_tower (height : Nat) : (tower height).nesting = height := by
  induction height with
  | zero => rfl
  | succ height ih =>
      rw [tower, nesting, nestingEach, nestingEach, ih]
      simp

/-- A record as an array, its policy as an object, with an escape and blanks. -/
def arrayText : String :=
  " [\"appendable\", \"r\", \x7b\"preserve\":null\x7d, [[\"literal\", \"\\u0061\", \"\"]]]"

/-- The tower of 63 containers is read back, the one of 64 is not; a record in array form is
read back from its usual texts. -/
theorem read_back_tower :
    (∀ pretty, ofText ((tower 63).text pretty) = .ok (tower 63)) ∧
    (∀ pretty, ∃ error, ofText ((tower 64).text pretty) = .error error ∧
      error.cause = .tooDeep ∧ error.category = .syntaxError) ∧
    ofText arrayText = .ok (.region "r" .preserve [.literal "a" ""]) ∧
    ∀ pretty, ofText ((Record.region "r" .preserve [.literal "a" ""]).text pretty)
      = .ok (.region "r" .preserve [.literal "a" ""]) := by
  have hwithin : ∀ line, Descent (tower 63) line → containers line ≤ 63 :=
    nesting_le_iff.1 (Nat.le_of_eq (nesting_tower 63))
  have hbeyond : ∃ line, Descent (tower 64) line ∧ 64 ≤ containers line := by
    by_contra hnone
    have hle : (tower 64).nesting ≤ 63 := by
      rw [nesting_le_iff]
      intro line hline
      by_contra hlt
      exact hnone ⟨line, hline, by omega⟩
    rw [nesting_tower] at hle
    omega
  have harray : ofText arrayText = .ok (.region "r" .preserve [.literal "a" ""]) :=
    ofText_eq_ok_of_text false (by decide) (by decide +kernel)
  exact ⟨(read_back (tower 63)).1 hwithin, (read_back (tower 64)).2.1 hbeyond, harray,
    ((read_back _).2.2 _ harray).2⟩

end Regeneration.Record
