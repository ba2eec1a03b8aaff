import Regeneration.Proofs.Json.Spelling

/-!
# Reading what was written

A reader passes the blanks of any spacing, so it gives back what was written. Lists of
elements and of members are read for any reader of items (`elements_further`,
`members_further`); values without numbers are one such reader.

Main statement: `written_value`, a value that fits the limit on open arrays and objects
is read back from its spelling.
-/

set_option autoImplicit false

namespace Regeneration.Json

/-! ## Blanks -/

theorem skipBlanks_append {blanks : List Char} (h : ∀ c ∈ blanks, isBlank c = true)
    (text : List Char) : skipBlanks (blanks ++ text) = skipBlanks text := by
  induction blanks with
  | nil => rfl
  | cons c rest ih =>
      rw [List.cons_append, skipBlanks, if_pos (h c List.mem_cons_self),
        ih fun d hd => h d (List.mem_cons_of_mem c hd)]

/-- Behind the blanks of a line stands what was put there. -/
theorem Spacing.skipBlanks_line (spacing : Spacing) (level : Nat) {c : Char}
    (hc : isBlank c = false) (rest : List Char) :
    skipBlanks (spacing.line level ++ c :: rest) = c :: rest := by
  rw [skipBlanks_append (spacing.line_blank level), skipBlanks_of_not_blank rest hc]

/-! ## Steps -/

section Steps

variable {text rest : List Char}

theorem nextElement_close (first : Bool) (h : skipBlanks text = ']' :: rest) :
    nextElement first text = .ok (.stop rest) := by
  simp [nextElement, h]

theorem nextElement_first {c : Char} (h : skipBlanks text = c :: rest) (hc : c ≠ ']') :
    nextElement true text = .ok (.more (c :: rest)) := by
  simp [nextElement, h, hc]

theorem nextElement_comma {c : Char} (h : skipBlanks text = c :: rest) (hc : c ≠ ']') :
    nextElement false (',' :: text) = .ok (.more (c :: rest)) := by
  have hcomma : skipBlanks (',' :: text) = ',' :: text := skipBlanks_of_not_blank text rfl
  simp [nextElement, hcomma, h, hc]

theorem nextName_close (first : Bool) (h : skipBlanks text = '\x7d' :: rest) :
    nextName first text = .ok (.stop rest) := by
  simp [nextName, h]

theorem nextName_first (h : skipBlanks text = '\x22' :: rest) :
    nextName true text = .ok (.more rest) := by
  simp [nextName, h]

theorem nextName_comma (h : skipBlanks text = '\x22' :: rest) :
    nextName false (',' :: text) = .ok (.more rest) := by
  have hcomma : skipBlanks (',' :: text) = ',' :: text := skipBlanks_of_not_blank text rfl
  simp [nextName, hcomma, h]

theorem colon_colon (text : List Char) : colon (':' :: text) = .ok text := rfl

theorem value_string {depth : Nat} (h : skipBlanks text = '\x22' :: rest) :
    value depth text = (Quoted.read rest).map fun result => (.string result.1, result.2) := by
  rw [value.eq_def]
  simp only [h]
  rfl

theorem value_array {depth : Nat} (h : skipBlanks text = '[' :: rest) :
    value (depth + 1) text
      = (array (value depth) rest).map fun result => (.array result.1, result.2) := by
  rw [value.eq_def]
  simp only [h]
  rfl

theorem value_object {depth : Nat} (h : skipBlanks text = '\x7b' :: rest) :
    value (depth + 1) text
      = (object (fun _ => value depth) rest).map fun result => (.object result.1, result.2) := by
  rw [value.eq_def]
  simp only [h]
  rfl

end Steps

/-! ## Lists -/

/-- What is written for an item in front of any tail is read back by a reader of
items, behind any blanks. -/
structure Written {α : Type} (item : Reader α) (found : α)
    (write : List Char → List Char) : Prop where
  starts : ∀ tail, ∃ c rest, write tail = c :: rest ∧ isBlank c = false ∧ c ≠ ']'
  grows : ∀ tail, tail.length ≤ (write tail).length
  reads : ∀ {text tail}, skipBlanks text = write tail → item text = .ok (found, tail)

namespace Written

variable {α : Type} {item : Reader α} {found : α} {write : List Char → List Char}

theorem skipBlanks_append (h : Written item found write) {blanks : List Char}
    (hb : ∀ c ∈ blanks, isBlank c = true) (tail : List Char) :
    skipBlanks (blanks ++ write tail) = write tail := by
  obtain ⟨c, rest, hw, hc, -⟩ := h.starts tail
  rw [Json.skipBlanks_append hb, hw, skipBlanks_of_not_blank rest hc]

theorem reads_append (h : Written item found write) {blanks : List Char}
    (hb : ∀ c ∈ blanks, isBlank c = true) (tail : List Char) :
    item (blanks ++ write tail) = .ok (found, tail) :=
  h.reads (h.skipBlanks_append hb tail)

theorem reads_write (h : Written item found write) (tail : List Char) :
    item (write tail) = .ok (found, tail) := by
  have hnone : ∀ c ∈ ([] : List Char), isBlank c = true := by
    intro c hc
    cases hc
  exact h.reads_append hnone tail

/-- A whole text is read back. -/
theorem readAll_ofList (h : Written item found write) :
    readAll item (String.ofList (write [])) = .ok found := by
  rw [readAll, String.toList_ofList, h.reads_write]
  rfl

end Written

section Lists

variable {α β : Type} {found : α → β} {write : α → List Char → List Char} (spacing : Spacing)
  (level below : Nat) {items : List α}

theorem length_le_further (h : ∀ a ∈ items, ∀ tail, tail.length ≤ (write a tail).length)
    (tail : List Char) :
    items.length + tail.length ≤ (spacing.further level write items tail).length := by
  induction items with
  | nil => simp [Spacing.further]
  | cons a rest ih =>
      have hrest := ih fun other hm => h other (List.mem_cons_of_mem a hm)
      have ha := h a List.mem_cons_self (spacing.further level write rest tail)
      simp only [Spacing.further, List.length_cons, List.length_append]
      omega

/-- A list and what follows it are shorter than their text, so the length of the text
bounds the items. -/
theorem length_lt_spelled {first : List Char → List Char}
    (hfirst : ∀ tail, tail.length ≤ (first tail).length)
    (h : ∀ a ∈ items, ∀ tail, tail.length ≤ (write a tail).length) (c : Char)
    (tail : List Char) :
    items.length + tail.length < (spacing.line level ++ first
      (spacing.further level write items (spacing.line below ++ c :: tail))).length := by
  have hitems := length_le_further spacing level h (spacing.line below ++ c :: tail)
  have hwhole := hfirst (spacing.further level write items (spacing.line below ++ c :: tail))
  simp only [List.length_append, List.length_cons] at hitems hwhole ⊢
  omega

/-- **Further elements are read one by one** up to the closing bracket. -/
theorem elements_further {item : Reader β} (h : ∀ a ∈ items, Written item (found a) (write a))
    {bound : Nat} (hbound : items.length < bound) (tail : List Char) :
    elements item bound false
        (spacing.further level write items (spacing.line below ++ ']' :: tail))
      = .ok (items.map found, tail) := by
  induction items generalizing bound with
  | nil =>
      obtain ⟨bound, rfl⟩ : ∃ less, bound = less + 1 := ⟨bound - 1, by omega⟩
      rw [Spacing.further, elements,
        nextElement_close false (spacing.skipBlanks_line below rfl tail)]
      rfl
  | cons a rest ih =>
      obtain ⟨bound, rfl⟩ : ∃ less, bound = less + 1 := ⟨bound - 1, by omega⟩
      have ha := h a List.mem_cons_self
      have hrest := ih (fun other hm => h other (List.mem_cons_of_mem a hm))
        (Nat.lt_of_succ_lt_succ hbound)
      -- the element is reached behind the comma and the blanks
      obtain ⟨c, more, hw, -, hc⟩ := ha.starts
        (spacing.further level write rest (spacing.line below ++ ']' :: tail))
      have hstep :=
        nextElement_comma ((ha.skipBlanks_append (spacing.line_blank level) _).trans hw) hc
      rw [Spacing.further, elements, hstep, ← hw]
      simp only [bind, Except.bind, ha.reads_write, hrest]
      rfl

/-- The elements of an array that is not empty. -/
theorem array_spelled {item : Reader β} {a : α} (ha : Written item (found a) (write a))
    (h : ∀ a ∈ items, Written item (found a) (write a)) (tail : List Char) :
    array item (spacing.line level ++ write a
        (spacing.further level write items (spacing.line below ++ ']' :: tail)))
      = .ok (found a :: items.map found, tail) := by
  obtain ⟨c, more, hw, -, hc⟩ := ha.starts
    (spacing.further level write items (spacing.line below ++ ']' :: tail))
  have hstep :=
    nextElement_first ((ha.skipBlanks_append (spacing.line_blank level) _).trans hw) hc
  have hbound := length_lt_spelled spacing level below ha.grows (fun a hm => (h a hm).grows) ']'
    tail
  rw [array, elements, hstep, ← hw]
  simp only [bind, Except.bind, ha.reads_write,
    elements_further spacing level below h (Nat.lt_of_le_of_lt (Nat.le_add_right _ _) hbound)]

end Lists

/-! ## Members -/

theorem length_le_encode (chars tail : List Char) :
    tail.length ≤ (Quoted.encode chars tail).length := by
  induction chars with
  | nil => simp [Quoted.encode]
  | cons c rest ih =>
      rw [Quoted.encode, List.foldr_cons, List.length_append]
      exact Nat.le_trans ih (Nat.le_add_left _ _)

section Members

variable {α β : Type} (member : String → Reader β) (name : α → String) {found : α → β}
  {write : α → List Char → List Char} (spacing : Spacing) (level below : Nat) {items : List α}

/-- What follows the opening quote of a member's name: the rest of the name, the colon
and the value. -/
theorem read_member {item : Reader β} {value : β} {write : List Char → List Char}
    (h : Written item value write) (name : String) (tail : List Char) :
    ∃ rest, spacing.member name write tail = '\x22' :: rest ∧
      Quoted.read rest = .ok (name, ':' :: (spacing.gap ++ write tail)) ∧
      item (spacing.gap ++ write tail) = .ok (value, tail) :=
  ⟨_, rfl, Quoted.read_encode name _, h.reads_append spacing.gap_blank tail⟩

theorem length_le_member {write : List Char → List Char} (name : String)
    (h : ∀ tail, tail.length ≤ (write tail).length) (tail : List Char) :
    tail.length ≤ (spacing.member name write tail).length := by
  have hname := length_le_encode name.toList (':' :: (spacing.gap ++ write tail))
  have hvalue := h tail
  simp only [Spacing.member, Quoted.write, List.length_cons, List.length_append] at hname ⊢
  omega

/-- **Further members are read one by one** up to the closing bracket. -/
theorem members_further (h : ∀ a ∈ items, Written (member (name a)) (found a) (write a))
    {bound : Nat} (hbound : items.length < bound) (tail : List Char) :
    members member bound false (spacing.furtherMembers level name write items
        (spacing.line below ++ '\x7d' :: tail))
      = .ok (items.map fun a => (name a, found a), tail) := by
  induction items generalizing bound with
  | nil =>
      obtain ⟨bound, rfl⟩ : ∃ less, bound = less + 1 := ⟨bound - 1, by omega⟩
      rw [Spacing.furtherMembers, Spacing.further, members,
        nextName_close false (spacing.skipBlanks_line below rfl tail)]
      rfl
  | cons a rest ih =>
      obtain ⟨bound, rfl⟩ : ∃ less, bound = less + 1 := ⟨bound - 1, by omega⟩
      have hrest := ih (fun other hm => h other (List.mem_cons_of_mem a hm))
        (Nat.lt_of_succ_lt_succ hbound)
      -- the name is reached behind the comma and the blanks
      obtain ⟨text, hw, hname, hvalue⟩ := read_member spacing (h a List.mem_cons_self) (name a)
        (spacing.furtherMembers level name write rest (spacing.line below ++ '\x7d' :: tail))
      have hstep := nextName_comma (spacing.skipBlanks_line level rfl text)
      rw [Spacing.furtherMembers, Spacing.further, ← Spacing.furtherMembers, hw, members, hstep]
      simp only [bind, Except.bind, hname, colon_colon, hvalue, hrest]
      rfl

/-- The members of an object that is not empty. -/
theorem object_spelled {a : α} (ha : Written (member (name a)) (found a) (write a))
    (h : ∀ a ∈ items, Written (member (name a)) (found a) (write a)) (tail : List Char) :
    object member (spacing.line level ++ spacing.member (name a) (write a)
        (spacing.furtherMembers level name write items (spacing.line below ++ '\x7d' :: tail)))
      = .ok ((name a, found a) :: items.map fun a => (name a, found a), tail) := by
  obtain ⟨text, hw, hname, hvalue⟩ := read_member spacing ha (name a)
    (spacing.furtherMembers level name write items (spacing.line below ++ '\x7d' :: tail))
  have hstep := nextName_first (spacing.skipBlanks_line level rfl text)
  have hbound := length_lt_spelled spacing level below
    (length_le_member spacing (name a) ha.grows)
    (fun a hm => length_le_member spacing (name a) (h a hm).grows) '\x7d' tail
  rw [← Spacing.furtherMembers, hw] at hbound
  rw [hw, object, members, hstep]
  have hothers := members_further member name spacing level below h
    (Nat.lt_of_le_of_lt (Nat.le_add_right _ _) hbound) tail
  simp only [bind, Except.bind, hname, colon_colon, hvalue, hothers]

end Members

/-! ## Values -/

/-- A word is known by its first character. -/
theorem written_word {depth : Nat} {found : Value} (c : Char) (word : List Char)
    (hblank : isBlank c = false) (hclose : c ≠ ']')
    (h : ∀ {text tail}, skipBlanks text = c :: (word ++ tail) →
      value depth text = .ok (found, tail)) :
    Written (value depth) found fun tail => c :: (word ++ tail) where
  starts tail := ⟨c, word ++ tail, rfl, hblank, hclose⟩
  grows tail := by
    rw [List.length_cons, List.length_append]
    omega
  reads := h

theorem written_string (depth : Nat) (text : String) :
    Written (value depth) (.string text) (Quoted.write text) where
  starts tail := ⟨_, _, rfl, rfl, by decide⟩
  grows tail := by
    have h := length_le_encode text.toList tail
    rw [Quoted.write, List.length_cons]
    omega
  reads {text' tail} h := by
    rw [value_string h, Quoted.read_encode]
    rfl

/-- A string is read back by the reader of strings, too. -/
theorem written_text (found : String) : Written text found (Quoted.write found) where
  starts tail := ⟨_, _, rfl, rfl, by decide⟩
  grows := (written_string 0 found).grows
  reads {input tail} h := by
    rw [text, h]
    exact Quoted.read_encode found tail

theorem texts_array {text rest : List Char} (h : skipBlanks text = '[' :: rest) :
    texts text = array Json.text rest := by
  rw [texts, h]
  rfl

/-- A list of strings is read back by the reader of such lists. -/
theorem texts_spell (spacing : Spacing) (level : Nat) (found : List String) (tail : List Char) :
    texts ((Value.array (found.map .string)).spell spacing level tail) = .ok (found, tail) := by
  have hopen : ∀ rest, skipBlanks ('[' :: rest) = '[' :: rest := by
    intro rest
    exact skipBlanks_of_not_blank rest rfl
  cases found with
  | nil => exact (texts_array (hopen _)).trans rfl
  | cons head rest =>
      have hrest : ∀ other ∈ rest, Written text other (Quoted.write other) := by
        intro other _
        exact written_text other
      have hread := array_spelled spacing (level + 1) level (written_text head) hrest tail
      rw [List.map_cons, Value.spell, spellItems_eq_further, Spacing.further_map,
        texts_array (hopen _)]
      rw [List.map_id'] at hread
      exact hread

theorem written_array (spacing : Spacing) (level : Nat) {depth : Nat} {items : List Value}
    (h : ∀ item ∈ items, ∀ level, Written (value depth) item (item.spell spacing level)) :
    Written (value (depth + 1)) (.array items) ((Value.array items).spell spacing level) := by
  cases items with
  | nil =>
      refine ⟨fun tail => ⟨_, _, rfl, rfl, by decide⟩, fun tail => ?_, fun {text tail} ht => ?_⟩
      · simp only [Value.spell, List.length_cons]
        omega
      · rw [value_array ht]
        rfl
  | cons item rest =>
      have hitem := h item List.mem_cons_self (level + 1)
      have hrest : ∀ other ∈ rest,
          Written (value depth) other (other.spell spacing (level + 1)) := by
        intro other hm
        exact h other (List.mem_cons_of_mem item hm) (level + 1)
      refine ⟨fun tail => ⟨_, _, rfl, rfl, by decide⟩, fun tail => ?_, fun {text tail} ht => ?_⟩
      · have hlength := length_lt_spelled spacing (level + 1) level hitem.grows
          (fun other hm => (hrest other hm).grows) ']' tail
        rw [Value.spell, spellItems_eq_further, List.length_cons]
        omega
      · have hread := array_spelled spacing (level + 1) level (a := item) hitem hrest tail
        rw [Value.spell, spellItems_eq_further] at ht
        rw [value_array ht, hread, List.map_id']
        rfl

theorem written_object (spacing : Spacing) (level : Nat) {depth : Nat}
    {members : List (String × Value)}
    (h : ∀ member ∈ members, ∀ level,
      Written (value depth) member.2 (member.2.spell spacing level)) :
    Written (value (depth + 1)) (.object members) ((Value.object members).spell spacing level) := by
  cases members with
  | nil =>
      refine ⟨fun tail => ⟨_, _, rfl, rfl, by decide⟩, fun tail => ?_, fun {text tail} ht => ?_⟩
      · simp only [Value.spell, List.length_cons]
        omega
      · rw [value_object ht]
        rfl
  | cons member rest =>
      have hmember := h member List.mem_cons_self (level + 1)
      have hrest : ∀ other ∈ rest,
          Written (value depth) other.2 (other.2.spell spacing (level + 1)) := by
        intro other hm
        exact h other (List.mem_cons_of_mem member hm) (level + 1)
      refine ⟨fun tail => ⟨_, _, rfl, rfl, by decide⟩, fun tail => ?_, fun {text tail} ht => ?_⟩
      · have hlength := length_lt_spelled spacing (level + 1) level
          (length_le_member spacing member.1 hmember.grows)
          (fun other hm => length_le_member spacing other.1 (hrest other hm).grows) '\x7d' tail
        rw [Value.spell, spellMembers_eq_furtherMembers, Spacing.furtherMembers, List.length_cons]
        omega
      · have hread := object_spelled (fun _ => value depth) Prod.fst spacing (level + 1)
          level hmember hrest tail
        rw [Value.spell, spellMembers_eq_furtherMembers] at ht
        rw [value_object ht, hread, List.map_id']
        rfl

/-- **A value is read back from its spelling**, provided it fits the limit and has no
numbers in it. -/
theorem written_value {depth : Nat} {found : Value} (hfits : found.Fits depth)
    (hfree : found.NumberFree) (spacing : Spacing) (level : Nat) :
    Written (value depth) found (found.spell spacing level) := by
  induction hfits generalizing level with
  | null depth =>
      refine written_word 'n' ['u', 'l', 'l'] rfl (by decide) fun h => ?_
      rw [value.eq_def]
      simp only [h]
      rfl
  | bool depth truth =>
      cases truth with
      | true =>
          refine written_word 't' ['r', 'u', 'e'] rfl (by decide) fun h => ?_
          rw [value.eq_def]
          simp only [h]
          rfl
      | false =>
          refine written_word 'f' ['a', 'l', 's', 'e'] rfl (by decide) fun h => ?_
          rw [value.eq_def]
          simp only [h]
          rfl
  | number => cases hfree
  | string depth text => exact written_string depth text
  | array each ih =>
      cases hfree with
      | array free => exact written_array spacing level fun item hm => ih item hm (free item hm)
  | object each ih =>
      cases hfree with
      | object free =>
          exact written_object spacing level fun member hm => ih member hm (free member hm)

end Regeneration.Json
