import Regeneration.Json.Error

/-!
# JSON strings

A string stands between double quotes. In it the quote, the backslash and the
control characters are escaped; on reading, every escape of JSON is understood,
and two `\u` escapes that form a surrogate pair stand for one character.

Main statements: `content_encode`, reading what was written gives the text back,
and `read_encode`, the same for whole strings.
-/

set_option autoImplicit false

namespace Regeneration.Json.Quoted

/-- The value of a hexadecimal digit. -/
def hexValue? (c : Char) : Option Nat :=
  if '0' ≤ c ∧ c ≤ '9' then some (c.toNat - '0'.toNat)
  else if 'a' ≤ c ∧ c ≤ 'f' then some (c.toNat - 'a'.toNat + 10)
  else if 'A' ≤ c ∧ c ≤ 'F' then some (c.toNat - 'A'.toNat + 10)
  else none

/-- The hexadecimal digit of a value below sixteen. -/
def hexDigit (value : Nat) : Char :=
  if value < 10 then Char.ofNat ('0'.toNat + value) else Char.ofNat ('a'.toNat + (value - 10))

/-- Reads four hexadecimal digits. The text has to go on for four bytes before
the digits are looked at. -/
def hexCode (text : List Char) : Except Fault (Nat × List Char) :=
  if (text.take 4).foldl (fun size c => size + c.utf8Size) 0 < 4 then
    .error ⟨.endInString, .here, []⟩
  else
    match text with
    | a :: b :: c :: d :: rest =>
      match hexValue? a, hexValue? b, hexValue? c, hexValue? d with
      | some a, some b, some c, some d => .ok (((a * 16 + b) * 16 + c) * 16 + d, rest)
      | _, _, _, _ => .error ⟨.invalidEscape, .here, rest⟩
    | _ => .error ⟨.invalidEscape, .here, []⟩

/-- Whether a code is the first half of a surrogate pair. -/
def isLeading (code : Nat) : Bool := 0xD800 ≤ code && code ≤ 0xDBFF

/-- Whether a code is the second half of a surrogate pair. -/
def isTrailing (code : Nat) : Bool := 0xDC00 ≤ code && code ≤ 0xDFFF

/-- The character of a surrogate pair. -/
def combine (leading trailing : Nat) : Char :=
  Char.ofNat ((leading - 0xD800) * 0x400 + (trailing - 0xDC00) + 0x10000)

/-- The second half of a pair whose first half was read. -/
def pairEnd (leading : Nat) (text : List Char) : Except Fault (Char × List Char) :=
  match text with
  | [] => .error ⟨.endInString, .here, []⟩
  | '\\' :: [] => .error ⟨.endInString, .here, []⟩
  | '\\' :: 'u' :: rest =>
    match hexCode rest with
    | .error fault => .error fault
    | .ok (trailing, rest) =>
      if isTrailing trailing then .ok (combine leading trailing, rest)
      else .error ⟨.loneSurrogate, .here, rest⟩
  | '\\' :: _ :: rest => .error ⟨.endOfPair, .here, rest⟩
  | _ :: rest => .error ⟨.endOfPair, .here, rest⟩

/-- The character of an escape whose backslash was read. -/
def escape (text : List Char) : Except Fault (Char × List Char) :=
  match text with
  | [] => .error ⟨.endInString, .here, []⟩
  | 'u' :: rest =>
    match hexCode rest with
    | .error fault => .error fault
    | .ok (code, rest) =>
      if isTrailing code then .error ⟨.loneSurrogate, .here, rest⟩
      else if isLeading code then pairEnd code rest
      else .ok (Char.ofNat code, rest)
  | c :: rest =>
    if c = '\x22' ∨ c = '\\' ∨ c = '/' then .ok (c, rest)
    else if c = 'b' then .ok ('\x08', rest)
    else if c = 'f' then .ok ('\x0c', rest)
    else if c = 'n' then .ok ('\n', rest)
    else if c = 'r' then .ok ('\r', rest)
    else if c = 't' then .ok ('\t', rest)
    else .error ⟨.invalidEscape, .here, rest⟩

/-- Passes an escape whose backslash was read; which character it stands for does
not matter, so halves of surrogate pairs may stand alone. -/
def skipEscape (text : List Char) : Except Fault (List Char) :=
  match text with
  | [] => .error ⟨.endInString, .here, []⟩
  | 'u' :: rest =>
    match hexCode rest with
    | .error fault => .error fault
    | .ok (_, rest) => .ok rest
  | c :: rest =>
    if c = '\x22' ∨ c = '\\' ∨ c = '/' ∨ c = 'b' ∨ c = 'f' ∨ c = 'n' ∨ c = 'r' ∨ c = 't' then
      .ok rest
    else .error ⟨.invalidEscape, .here, rest⟩

theorem hexCode_length {text rest : List Char} {code : Nat} (h : hexCode text = .ok (code, rest)) :
    rest.length < text.length := by
  unfold hexCode at h
  split at h
  · cases h
  · split at h
    · split at h
      · cases h
        simp
        omega
      · cases h
    · cases h

theorem escape_length {text rest : List Char} {c : Char} (h : escape text = .ok (c, rest)) :
    rest.length < text.length := by
  unfold escape at h
  split at h
  · cases h
  · split at h
    · cases h
    · next hcode =>
        have h1 := hexCode_length hcode
        split at h
        · cases h
        · split at h
          · unfold pairEnd at h
            split at h
            · cases h
            · cases h
            · split at h
              · cases h
              · next hcode' =>
                  have h2 := hexCode_length hcode'
                  split at h
                  · simp only [Except.ok.injEq, Prod.mk.injEq] at h
                    simp only [List.length_cons, ← h.2] at h1 ⊢
                    omega
                  · cases h
            · cases h
            · cases h
          · cases h
            simp only [List.length_cons]
            omega
  · repeat' split at h
    all_goals first
      | (cases h; done)
      | (cases h; simp)

theorem skipEscape_length {text rest : List Char} (h : skipEscape text = .ok rest) :
    rest.length < text.length := by
  unfold skipEscape at h
  split at h
  · cases h
  · split at h
    · cases h
    · next hcode =>
        have h1 := hexCode_length hcode
        cases h
        simp only [List.length_cons]
        omega
  · split at h
    · cases h
      simp
    · cases h

/-- Reads a string whose opening quote was read, up to and with the closing
quote. The characters read so far are given in reverse. -/
def content (read : List Char) (text : List Char) : Except Fault (List Char × List Char) :=
  match text with
  | [] => .error ⟨.endInString, .here, []⟩
  | c :: rest =>
    if c = '\x22' then .ok (read.reverse, rest)
    else if c = '\\' then
      match h : escape rest with
      | .error fault => .error fault
      | .ok (c, rest') =>
        have := escape_length h
        content (c :: read) rest'
    else if c < ' ' then .error ⟨.controlCharacter, .here, c :: rest⟩
    else content (c :: read) rest
termination_by text.length

/-- Passes a string whose opening quote was read. -/
def skip (text : List Char) : Except Fault (List Char) :=
  match text with
  | [] => .error ⟨.endInString, .here, []⟩
  | c :: rest =>
    if c = '\x22' then .ok rest
    else if c = '\\' then
      match h : skipEscape rest with
      | .error fault => .error fault
      | .ok rest' =>
        have := skipEscape_length h
        skip rest'
    else if c < ' ' then .error ⟨.controlCharacter, .here, c :: rest⟩
    else skip rest
termination_by text.length

/-- Reads a string whose opening quote was read. -/
def read (text : List Char) : Except Fault (String × List Char) :=
  match content [] text with
  | .error fault => .error fault
  | .ok (chars, rest) => .ok (String.ofList chars, rest)

/-- A character as it is written in a string. -/
def encodeChar (c : Char) : List Char :=
  if c = '\x22' ∨ c = '\\' then ['\\', c]
  else if c = '\x08' then ['\\', 'b']
  else if c = '\x0c' then ['\\', 'f']
  else if c = '\n' then ['\\', 'n']
  else if c = '\r' then ['\\', 'r']
  else if c = '\t' then ['\\', 't']
  else if c < ' ' then ['\\', 'u', '0', '0', hexDigit (c.toNat / 16), hexDigit (c.toNat % 16)]
  else [c]

/-- The characters of a string followed by the closing quote and a tail. -/
def encode (chars tail : List Char) : List Char :=
  chars.foldr (fun c tail => encodeChar c ++ tail) ('\x22' :: tail)

/-- A string in quotes followed by a tail. -/
def write (text : String) (tail : List Char) : List Char := '\x22' :: encode text.toList tail

/-- The control characters have codes below thirty-two. -/
theorem exists_code_of_lt_space {c : Char} (h : c < ' ') : ∃ n < 32, c = Char.ofNat n :=
  ⟨c.toNat, h, (Char.ofNat_toNat c).symm⟩

/-- Every control character's escape reads as that character. -/
theorem escape_encodeChar_control :
    ∀ n < 32, ∀ tail : List Char,
      ∃ body, encodeChar (Char.ofNat n) = '\\' :: body ∧
        escape (body ++ tail) = .ok (Char.ofNat n, tail) ∧ skipEscape (body ++ tail) = .ok tail := by
  intro n hn tail
  have : n = 0 ∨ n = 1 ∨ n = 2 ∨ n = 3 ∨ n = 4 ∨ n = 5 ∨ n = 6 ∨ n = 7 ∨ n = 8 ∨ n = 9 ∨ n = 10 ∨
      n = 11 ∨ n = 12 ∨ n = 13 ∨ n = 14 ∨ n = 15 ∨ n = 16 ∨ n = 17 ∨ n = 18 ∨ n = 19 ∨ n = 20 ∨
      n = 21 ∨ n = 22 ∨ n = 23 ∨ n = 24 ∨ n = 25 ∨ n = 26 ∨ n = 27 ∨ n = 28 ∨ n = 29 ∨ n = 30 ∨
      n = 31 := by omega
  rcases this with rfl | rfl | rfl | rfl | rfl | rfl | rfl | rfl | rfl | rfl | rfl | rfl | rfl |
    rfl | rfl | rfl | rfl | rfl | rfl | rfl | rfl | rfl | rfl | rfl | rfl | rfl | rfl | rfl | rfl |
    rfl | rfl | rfl <;> exact ⟨_, rfl, rfl, rfl⟩

/-- A written character is read as itself. -/
theorem content_encodeChar (c : Char) (read tail : List Char) :
    content read (encodeChar c ++ tail) = content (c :: read) tail := by
  by_cases hc : c < ' '
  · obtain ⟨n, hn, rfl⟩ := exists_code_of_lt_space hc
    obtain ⟨body, he, hr, _⟩ := escape_encodeChar_control n hn tail
    rw [he, List.cons_append, content, if_neg (by decide), if_pos rfl]
    split
    · next h => rw [hr] at h; cases h
    · next h => rw [hr] at h; cases h; rfl
  · by_cases hq : c = '\x22' ∨ c = '\\'
    · have he : escape ([c] ++ tail) = .ok (c, tail) := by
        rcases hq with rfl | rfl <;> rfl
      rw [encodeChar, if_pos hq, List.cons_append, content, if_neg (by decide), if_pos rfl]
      split
      · next h => rw [he] at h; cases h
      · next h => rw [he] at h; cases h; rfl
    · have hlt : ∀ d : Char, d < ' ' → c ≠ d := fun d hd e => hc (e ▸ hd)
      rw [encodeChar, if_neg hq, if_neg (hlt _ (by decide)), if_neg (hlt _ (by decide)),
        if_neg (hlt _ (by decide)), if_neg (hlt _ (by decide)), if_neg (hlt _ (by decide)),
        if_neg hc, List.cons_append, List.nil_append, content, if_neg fun e => hq (.inl e),
        if_neg fun e => hq (.inr e), if_neg hc]

/-- Reading what was written gives the characters back. -/
theorem content_encode (chars read tail : List Char) :
    content read (encode chars tail) = .ok (read.reverse ++ chars, tail) := by
  induction chars generalizing read with
  | nil => rw [encode, List.foldr_nil, content, if_pos rfl, List.append_nil]
  | cons c chars ih =>
      rw [encode, List.foldr_cons, content_encodeChar]
      exact (ih (c :: read)).trans (by simp)

/-- Reading a written string gives it back. -/
theorem read_encode (text : String) (tail : List Char) :
    Quoted.read (encode text.toList tail) = .ok (text, tail) := by
  simp [Quoted.read, content_encode]

end Regeneration.Json.Quoted
