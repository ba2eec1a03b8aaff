import Regeneration.Proofs.Json.Inversion
import Regeneration.Proofs.Json.Reading
import Regeneration.Proofs.Record.Values

/-!
# Texts of records

A record is read back from its text, compact or indented, if it fits the limit on open
arrays and objects. What was read fits the limit it was read with, so a record that was
read as part of a larger document is read back on its own.

Main statements: `ofText_text` and `fits_of_read`.
-/

set_option autoImplicit false

namespace Regeneration.Record

open Json (Value Written Spacing)
open Outcome

theorem readTag_append {tag : Tag} {blanks : List Char}
    (hb : ∀ c ∈ blanks, Json.isBlank c = true) (tail : List Char) :
    readTag (blanks ++ Json.Quoted.write tag.name tail) = .ok (tag, tail) := by
  rw [readTag, (Json.written_text tag.name).reads_append hb]
  simp only [bind, Except.bind, named_name]

/-- The members behind the kind are read as values up to the closing bracket. -/
theorem readMembers_further {depth : Nat} (spacing : Spacing) (level below : Nat) (tag : Tag)
    {members : List (String × Value)} (htype : "type" ∉ members.map Prod.fst)
    (h : ∀ member ∈ members,
      Written (Json.value depth) member.2 (member.2.spell spacing level))
    {bound : Nat} (hbound : members.length < bound) (tail : List Char) :
    readMembers depth bound false (some tag)
        (spacing.furtherMembers level Prod.fst (fun member => member.2.spell spacing level)
          members (spacing.line below ++ '\x7d' :: tail))
      = .ok ((some tag, members), tail) := by
  induction members generalizing bound with
  | nil =>
      obtain ⟨bound, rfl⟩ : ∃ less, bound = less + 1 := ⟨bound - 1, by omega⟩
      rw [Spacing.furtherMembers, Spacing.further, readMembers,
        Json.nextName_close false (spacing.skipBlanks_line below rfl tail)]
      rfl
  | cons member rest ih =>
      obtain ⟨bound, rfl⟩ : ∃ less, bound = less + 1 := ⟨bound - 1, by omega⟩
      simp only [List.map_cons, List.mem_cons, not_or] at htype
      have hrest := ih htype.2 (fun other hm => h other (List.mem_cons_of_mem member hm))
        (Nat.lt_of_succ_lt_succ hbound)
      -- the name is reached behind the comma and the blanks
      obtain ⟨text, hw, hname, hvalue⟩ := Json.read_member spacing (h member List.mem_cons_self)
        member.1 (spacing.furtherMembers level Prod.fst
          (fun member => member.2.spell spacing level) rest
          (spacing.line below ++ '\x7d' :: tail))
      have hstep := Json.nextName_comma (spacing.skipBlanks_line level rfl text)
      rw [Spacing.furtherMembers, Spacing.further, ← Spacing.furtherMembers, hw, readMembers,
        hstep]
      simp only [bind, Except.bind, hname, if_neg (Ne.symm htype.1), Json.colon_colon, hvalue,
        hrest]

/-- The members behind the kind of a record are values that are read back. -/
theorem written_fields {depth : Nat} {record : Record} (h : record.toValue.Fits (depth + 1))
    (spacing : Spacing) (level : Nat) : ∀ member ∈ record.fields,
      Written (Json.value depth) member.2 (member.2.spell spacing level) := by
  have hfree := record.numberFree_toValue
  rw [toValue_eq] at h hfree
  intro member hm
  have hm' := List.mem_cons_of_mem ("type", Value.string record.tag.name) hm
  cases h with
  | object each =>
      cases hfree with
      | object free => exact Json.written_value (each member hm') (free member hm') spacing level

/-- The members of a record are read with the kind among them. -/
theorem readObject_spelled {depth : Nat} (spacing : Spacing) (level : Nat) {record : Record}
    (h : record.toValue.Fits (depth + 1)) (tail : List Char) :
    readObject depth (spacing.line (level + 1) ++ spacing.member "type"
        (Json.Quoted.write record.tag.name) (spacing.furtherMembers (level + 1) Prod.fst
          (fun member => member.2.spell spacing (level + 1)) record.fields
          (spacing.line level ++ '\x7d' :: tail)))
      = .ok ((record.tag, record.fields), tail) := by
  have hmembers := written_fields h spacing (level + 1)
  have htag := Json.written_text record.tag.name
  -- the text is long enough for all the members
  have hbound := Json.length_lt_spelled spacing (level + 1) level
    (Json.length_le_member spacing "type" htag.grows)
    (fun member hm => Json.length_le_member spacing member.1 (hmembers member hm).grows)
    '\x7d' tail
  obtain ⟨text, hw, hname, -⟩ := Json.read_member spacing htag "type"
    (spacing.furtherMembers (level + 1) Prod.fst
      (fun member => member.2.spell spacing (level + 1)) record.fields
      (spacing.line level ++ '\x7d' :: tail))
  have hstep := Json.nextName_first (spacing.skipBlanks_line (level + 1) rfl text)
  rw [← Spacing.furtherMembers, hw] at hbound
  have hrest := readMembers_further spacing (level + 1) level record.tag
    record.type_not_mem_fields hmembers
    (Nat.lt_of_le_of_lt (Nat.le_add_right _ _) hbound) tail
  rw [hw, readObject, readMembers, hstep]
  simp only [bind, Except.bind, hname, if_pos, Option.isSome_none, Bool.false_eq_true,
    if_false, Json.colon_colon, readTag_append spacing.gap_blank, hrest]

theorem read_eq_placed {depth : Nat} {text rest : List Char}
    (h : Json.skipBlanks text = '\x7b' :: rest) :
    read (depth + 1) text
      = (Json.placed Json.closeObject (readObject depth rest)).bind fun result =>
          shaped (ofMembers result.1.1 (memberParts result.1.2)) result.2 := by
  rw [read.eq_def]
  simp only [h]
  rfl

/-- **A record is read back from its spelling** if it fits the limit. -/
theorem written_record {depth : Nat} {record : Record} (h : record.toValue.Fits depth)
    (spacing : Spacing) (level : Nat) :
    Written (read depth) record (record.toValue.spell spacing level) := by
  have hvalue := Json.written_value h record.numberFree_toValue spacing level
  refine ⟨hvalue.starts, hvalue.grows, fun {text tail} ht => ?_⟩
  obtain ⟨depth, rfl⟩ := exists_of_fits h
  have hread := readObject_spelled spacing level h tail
  rw [toValue_eq, Value.spell, Json.spellMembers_eq_furtherMembers] at ht
  have hstring : (Value.string record.tag.name).spell spacing (level + 1)
      = Json.Quoted.write record.tag.name := by
    funext tail
    rfl
  rw [read_eq_placed ht, hstring, hread]
  simp only [Json.placed, Except.bind, ofMembers_memberParts, shaped]

/-- A record is read back from its text with every limit that it fits. -/
theorem readAll_text {depth : Nat} {record : Record} (h : record.toValue.Fits depth)
    (pretty : Bool) : Json.readAll (read depth) (record.text pretty) = .ok record := by
  cases pretty with
  | false =>
      have hchars := Json.write_eq_spell record.toValue 0 []
      rw [text, if_neg Bool.false_ne_true, compact, Value.compact, hchars]
      exact (written_record h .compact 0).readAll_ofList
  | true =>
      have hchars := Json.writeIndented_eq_spell record.toValue 0 []
      rw [text, if_pos rfl, indented, Value.indented, hchars]
      exact (written_record h .indented 0).readAll_ofList

/-- **A record is read back from its text.** -/
theorem ofText_text {record : Record} (h : record.toValue.Fits Json.nestingLimit)
    (pretty : Bool) : ofText (record.text pretty) = .ok record :=
  readAll_text h pretty

/-! ## The limit on what is read -/

theorem shaped_eq_ok {outcome : Except Json.Cause Record} {record : Record}
    {rest behind : List Char} (h : shaped outcome rest = .ok (record, behind)) :
    outcome = .ok record := by
  cases outcome with
  | error => cases h
  | ok =>
      cases h
      rfl

/-- Every member behind the kind was read as a value. -/
theorem fits_readMembers {depth bound : Nat} {first : Bool} {before after : Option Tag}
    {text rest : List Char} {members : List (String × Value)}
    (h : readMembers depth bound first before text = .ok ((after, members), rest)) :
    ∀ member ∈ members, member.2.Fits depth := by
  induction bound generalizing first before text members with
  | zero => cases h
  | succ bound ih =>
      rw [readMembers] at h
      obtain ⟨next, -, h⟩ := bind_eq_ok.1 h
      cases next with
      | stop =>
          cases h
          exact fun _ hm => nomatch hm
      | more =>
          obtain ⟨⟨name, behind⟩, -, h⟩ := bind_eq_ok.1 h
          simp only at h
          split at h
          · split at h
            · cases h
            · obtain ⟨_, -, h⟩ := bind_eq_ok.1 h
              obtain ⟨_, -, h⟩ := bind_eq_ok.1 h
              exact ih h
          · obtain ⟨_, -, h⟩ := bind_eq_ok.1 h
            obtain ⟨⟨value, _⟩, hvalue, h⟩ := bind_eq_ok.1 h
            obtain ⟨⟨⟨_, others⟩, _⟩, hothers, h⟩ := bind_eq_ok.1 h
            cases h
            exact List.forall_mem_cons.2 ⟨Json.fits_of_value hvalue, ih hothers⟩

theorem fits_readObject {depth : Nat} {text rest : List Char} {tag : Tag}
    {members : List (String × Value)} (h : readObject depth text = .ok ((tag, members), rest)) :
    ∀ member ∈ members, member.2.Fits depth := by
  obtain ⟨⟨⟨found, others⟩, _⟩, hmembers, h⟩ := bind_eq_ok.1 h
  cases found with
  | none => cases h
  | some found =>
      cases h
      exact fits_readMembers hmembers

theorem fits_readArray {depth : Nat} {text rest : List Char} {tag : Tag} {items : List Value}
    (h : readArray depth text = .ok ((tag, items), rest)) :
    ∀ item ∈ items, item.Fits depth := by
  obtain ⟨next, -, h⟩ := bind_eq_ok.1 h
  cases next with
  | stop => cases h
  | more =>
      obtain ⟨_, -, h⟩ := bind_eq_ok.1 h
      obtain ⟨⟨found, _⟩, hitems, h⟩ := bind_eq_ok.1 h
      cases h
      intro item hm
      obtain ⟨_, _, hitem⟩ := Json.mem_elements hitems item hm
      exact Json.fits_of_value hitem

/-- **A record fits the limit it was read with.** -/
theorem fits_of_read {depth : Nat} {text rest : List Char} {record : Record}
    (h : read depth text = .ok (record, rest)) : record.toValue.Fits depth := by
  rw [read.eq_def] at h
  simp only at h
  split at h
  · cases h
  · split at h
    · split at h
      · cases h
      · next depth =>
          obtain ⟨⟨⟨tag, members⟩, _⟩, hread, h⟩ := bind_eq_ok.1 h
          have hmembers := fits_readObject (Json.placed_eq_ok hread)
          exact fits_ofMembers (shaped_eq_ok h) (fits_memberParts hmembers)
    · split at h
      · split at h
        · cases h
        · next depth =>
            obtain ⟨⟨⟨tag, items⟩, _⟩, hread, h⟩ := bind_eq_ok.1 h
            have hitems := fits_readArray (Json.placed_eq_ok hread)
            exact fits_ofItems (shaped_eq_ok h) (fits_itemParts hitems)
      · cases h

end Regeneration.Record
