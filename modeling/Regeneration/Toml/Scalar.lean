import Regeneration.Toml.Table

/-!
# TOML scalars

Strings in four forms, whole numbers in four bases, numbers with a point, and
moments in time. Each reader takes the text at the head and gives what it read
with the rest.

Control characters stand in no string. Lines of a long string end with a line
feed however they are written. Whole numbers have 64 bits with a sign. A moment
is a date, a time, or both, with or without an offset; it is checked against the
calendar and then forgotten.
-/

set_option autoImplicit false

namespace Regeneration.Toml

/-- Reads at the head of a text and gives the result with the rest. -/
abbrev Reader (α : Type) := List Char → Except Error (α × List Char)

/-- The problem of a text that does not go on as it should. -/
def unexpected {α : Type} : List Char → Except Error α
  | [] => .error .unexpectedEnd
  | c :: _ => .error (.unexpected c)

/-- Blanks within a line. -/
def isBlank (c : Char) : Bool := c == ' ' || c == '\t'

/-- The text behind its leading blanks. -/
def dropBlanks : List Char → List Char
  | [] => []
  | c :: rest => if isBlank c then dropBlanks rest else c :: rest

/-- The text behind a line end, if there is one at its head. -/
def lineEnd? : List Char → Option (List Char)
  | '\n' :: rest => some rest
  | '\r' :: '\n' :: rest => some rest
  | _ => none

/-- The text behind blanks and line ends. -/
def dropLines : List Char → List Char
  | '\r' :: '\n' :: rest => dropLines rest
  | c :: rest => if isBlank c || c == '\n' then dropLines rest else c :: rest
  | [] => []

/-- The characters of a line: all but control characters, the tab excepted. -/
def isLineChar (c : Char) : Bool := c == '\t' || (' ' ≤ c && c != '\x7f')

/-- Whether a character is a decimal digit. -/
def isDigit (c : Char) : Bool := '0' ≤ c && c ≤ '9'

/-- The value of a digit in a base up to sixteen. -/
def digitValue? (base : Nat) (c : Char) : Option Nat :=
  let value? :=
    if isDigit c then some (c.toNat - '0'.toNat)
    else if 'a' ≤ c ∧ c ≤ 'f' then some (c.toNat - 'a'.toNat + 10)
    else if 'A' ≤ c ∧ c ≤ 'F' then some (c.toNat - 'A'.toNat + 10)
    else none
  value?.filter fun value => value < base

/-! ## Strings -/

/-- Reads a number of hexadecimal digits. -/
def hexDigits : Nat → Nat → Reader Nat
  | 0, value, text => .ok (value, text)
  | count + 1, value, text =>
    match text with
    | [] => .error .unexpectedEnd
    | c :: rest =>
      match digitValue? 16 c with
      | some digit => hexDigits count (value * 16 + digit) rest
      | none => .error .invalidEscape

/-- Reads a character given by its code. -/
def codedChar (count : Nat) (text : List Char) : Except Error (Char × List Char) := do
  let (code, rest) ← hexDigits count 0 text
  if code < 0xD800 ∨ (0xDFFF < code ∧ code < 0x110000) then .ok (Char.ofNat code, rest)
  else .error .invalidEscape

/-- Reads an escape whose backslash was read. -/
def escape (text : List Char) : Except Error (Char × List Char) :=
  match text with
  | [] => .error .unexpectedEnd
  | c :: rest =>
    if c = '\x22' ∨ c = '\\' then .ok (c, rest)
    else if c = 'b' then .ok ('\x08', rest)
    else if c = 't' then .ok ('\t', rest)
    else if c = 'n' then .ok ('\n', rest)
    else if c = 'f' then .ok ('\x0c', rest)
    else if c = 'r' then .ok ('\r', rest)
    else if c = 'u' then codedChar 4 rest
    else if c = 'U' then codedChar 8 rest
    else .error .invalidEscape

/-- Reads a quoted string behind its opening quote; the number bounds the
characters. -/
def quoted : Nat → List Char → Reader (List Char)
  | 0, _, text => unexpected text
  | bound + 1, read, text =>
    match text with
    | [] => .error .unexpectedEnd
    | c :: rest =>
      if c = '\x22' then .ok (read.reverse, rest)
      else if c = '\\' then do
        let (c, rest) ← escape rest
        quoted bound (c :: read) rest
      else if isLineChar c then quoted bound (c :: read) rest
      else .error (.unexpected c)

/-- Reads a string that is taken as written, behind its opening apostrophe. -/
def verbatim (read : List Char) : Reader (List Char)
  | [] => .error .unexpectedEnd
  | c :: rest =>
    if c = '\x27' then .ok (read.reverse, rest)
    else if isLineChar c then verbatim (c :: read) rest
    else .error (.unexpected c)

/-- The number of times a character stands at the head of a text. -/
def runLength (c : Char) : List Char → Nat
  | [] => 0
  | d :: rest => if d = c then runLength c rest + 1 else 0

/-- Reads a string over several lines behind its opening delimiter. Up to two
delimiter characters may stand in the text, also right before its end. With
escapes, a backslash at the end of a line leaves out the line end and all blanks
and line ends behind it. -/
def long (delimiter : Char) (escapes : Bool) : Nat → List Char → Reader (List Char)
  | 0, _, text => unexpected text
  | bound + 1, read, text =>
    match text with
    | [] => .error .unexpectedEnd
    | c :: rest =>
      if c = delimiter then
        let run := runLength delimiter text
        if run < 3 then long delimiter escapes bound (c :: read) rest
        else
          let held := min (run - 3) 2
          .ok ((List.replicate held delimiter ++ read).reverse, text.drop (held + 3))
      else if escapes && c == '\\' then
        match lineEnd? (dropBlanks rest) with
        | some rest => long delimiter escapes bound read (dropLines rest)
        | none => do
          let (c, rest) ← escape rest
          long delimiter escapes bound (c :: read) rest
      else
        match lineEnd? text with
        | some rest => long delimiter escapes bound ('\n' :: read) rest
        | none =>
          if isLineChar c then long delimiter escapes bound (c :: read) rest
          else .error (.unexpected c)

/-- A long string behind its opening delimiter; a line end right behind it is
left out. -/
def longText (delimiter : Char) (escapes : Bool) (text : List Char) :
    Except Error (List Char × List Char) :=
  let text := (lineEnd? text).getD text
  long delimiter escapes (text.length + 1) [] text

/-- Reads a string on one line, as keys have it. -/
def lineString (text : List Char) : Except Error (String × List Char) :=
  match text with
  | '\x22' :: rest => do
    let (chars, rest) ← quoted (rest.length + 1) [] rest
    .ok (String.ofList chars, rest)
  | '\x27' :: rest => do
    let (chars, rest) ← verbatim [] rest
    .ok (String.ofList chars, rest)
  | text => unexpected text

/-- Reads a string in any form. -/
def string (text : List Char) : Except Error (String × List Char) :=
  match text with
  | '\x22' :: '\x22' :: '\x22' :: rest => do
    let (chars, rest) ← longText '\x22' true rest
    .ok (String.ofList chars, rest)
  | '\x27' :: '\x27' :: '\x27' :: rest => do
    let (chars, rest) ← longText '\x27' false rest
    .ok (String.ofList chars, rest)
  | text => lineString text

/-! ## Numbers -/

/-- Reads the digits of a base behind the first; a single underscore may stand
between two. -/
def digits (base : Nat) (value count : Nat) : Reader (Nat × Nat)
  | [] => .ok ((value, count), [])
  | '_' :: c :: rest =>
    match digitValue? base c with
    | some digit => digits base (value * base + digit) (count + 1) rest
    | none => .error .invalidNumber
  | c :: rest =>
    match digitValue? base c with
    | some digit => digits base (value * base + digit) (count + 1) rest
    | none => if c = '_' then .error .invalidNumber else .ok ((value, count), c :: rest)

/-- Reads one or more digits, zeros at their head included; gives their value and
their number. -/
def digitRun (base : Nat) (text : List Char) : Except Error ((Nat × Nat) × List Char) :=
  match text with
  | [] => .error .unexpectedEnd
  | c :: rest =>
    match digitValue? base c with
    | some digit => digits base digit 1 rest
    | none => .error .invalidNumber

/-- Reads a whole part: a zero, or digits that do not begin with one. -/
def wholePart (text : List Char) : Except Error (Nat × List Char) :=
  match text with
  | '0' :: rest => .ok (0, rest)
  | text => do
    let ((value, _), rest) ← digitRun 10 text
    .ok (value, rest)

/-- Reads an exponent behind its letter. -/
def exponent (text : List Char) : Except Error (Int × List Char) := do
  let (negative, text) := match text with
    | '+' :: rest => (false, rest)
    | '-' :: rest => (true, rest)
    | text => (false, text)
  let ((value, _), rest) ← digitRun 10 text
  .ok (if negative then -(value : Int) else value, rest)

/-- Whether `significand * 10 ^ exponent` lies beyond the finite doubles. -/
def isBeyond (significand : Nat) (exponent : Int) : Bool :=
  let size : Int := (Nat.toDigits 10 significand).length + exponent
  if significand = 0 ∨ size < 300 then false
  else if 320 < size then true
  else
    significand * Nat.pow 10 exponent.toNat
      ≥ 0x3FFFFFFFFFFFFF * Nat.pow 2 970 * Nat.pow 10 (-exponent).toNat

/-- A number with a fraction or an exponent: whether it is refused is decided by
its magnitude, and only above zero. -/
def real (negative : Bool) (significand : Nat) (exponent : Int) (rest : List Char) :
    Except Error (Scalar × List Char) :=
  if !negative && isBeyond significand exponent then .error .numberOutOfRange
  else .ok (.real, rest)

/-- What may follow the digits of a fraction. -/
def afterFraction (negative : Bool) (significand after : Nat) (text : List Char) :
    Except Error (Scalar × List Char) :=
  match text with
  | c :: rest =>
    if c = 'e' ∨ c = 'E' then do
      let (power, rest) ← exponent rest
      real negative significand (power - after) rest
    else real negative significand (-after) text
  | [] => real negative significand (-after) []

/-- A whole number within 64 bits. -/
def integer (negative : Bool) (value : Nat) (rest : List Char) :
    Except Error (Scalar × List Char) :=
  if value < 0x8000000000000000 then .ok (.integer (if negative then -(value : Int) else value), rest)
  else if negative ∧ value = 0x8000000000000000 then .ok (.integer (-(value : Int)), rest)
  else .error .numberOutOfRange

/-- Reads a decimal number behind its sign. -/
def decimal (negative : Bool) (text : List Char) : Except Error (Scalar × List Char) := do
  let (whole, rest) ← wholePart text
  match rest with
  | '.' :: rest =>
    let ((fraction, count), rest) ← digitRun 10 rest
    afterFraction negative (whole * Nat.pow 10 count + fraction) count rest
  | c :: after =>
    if c = 'e' ∨ c = 'E' then
      let (power, rest) ← exponent after
      real negative whole power rest
    else integer negative whole rest
  | [] => integer negative whole []

/-- Reads a whole number of a base behind the base's mark. -/
def based (base : Nat) (text : List Char) : Except Error (Scalar × List Char) := do
  let ((value, _), rest) ← digitRun base text
  integer false value rest

/-- Reads a word. -/
def word (letters : List Char) (scalar : Scalar) (text : List Char) :
    Except Error (Scalar × List Char) :=
  if text.take letters.length = letters then .ok (scalar, text.drop letters.length)
  else unexpected text

/-- Reads a number with or without a sign. -/
def number (text : List Char) : Except Error (Scalar × List Char) :=
  match text with
  | '0' :: 'x' :: rest => based 16 rest
  | '0' :: 'o' :: rest => based 8 rest
  | '0' :: 'b' :: rest => based 2 rest
  | '+' :: rest => signed false rest
  | '-' :: rest => signed true rest
  | text => decimal false text
where
  /-- Reads what stands behind a sign. -/
  signed (negative : Bool) (text : List Char) : Except Error (Scalar × List Char) :=
    match text with
    | 'i' :: _ => word ['i', 'n', 'f'] .real text
    | 'n' :: _ => word ['n', 'a', 'n'] .real text
    | text => decimal negative text

/-! ## Moments -/

/-- Takes a fixed number of digits. -/
def take? : Nat → Nat → List Char → Option (Nat × List Char)
  | 0, value, text => some (value, text)
  | count + 1, value, c :: rest =>
    if isDigit c then take? count (value * 10 + (c.toNat - '0'.toNat)) rest else none
  | _ + 1, _, [] => none

/-- Takes two digits whose value lies between bounds. -/
def pair? (low high : Nat) (text : List Char) : Option (Nat × List Char) :=
  (take? 2 0 text).filter fun (value, _) => low ≤ value && value ≤ high

/-- Takes one character. -/
def mark? (c : Char) : List Char → Option (List Char)
  | d :: rest => if d = c then some rest else none
  | [] => none

/-- The days of a month. -/
def daysIn (year month : Nat) : Nat :=
  if month = 2 then
    if year % 4 = 0 ∧ (year % 100 ≠ 0 ∨ year % 400 = 0) then 29 else 28
  else if month = 4 ∨ month = 6 ∨ month = 9 ∨ month = 11 then 30
  else 31

/-- Takes a date of the calendar. -/
def date? (text : List Char) : Option (List Char) := do
  let (year, rest) ← take? 4 0 text
  let rest ← mark? '-' rest
  let (month, rest) ← pair? 1 12 rest
  let rest ← mark? '-' rest
  let (_, rest) ← pair? 1 (daysIn year month) rest
  some rest

/-- Takes a fraction of a second, if there is one. -/
def dropFraction (text : List Char) : List Char :=
  match text with
  | '.' :: c :: rest => if isDigit c then rest.dropWhile isDigit else text
  | text => text

/-- Takes a time of day. -/
def time? (text : List Char) : Option (List Char) := do
  let (_, rest) ← pair? 0 23 text
  let rest ← mark? ':' rest
  let (_, rest) ← pair? 0 59 rest
  let rest ← mark? ':' rest
  let (_, rest) ← pair? 0 60 rest
  some (dropFraction rest)

/-- Takes an offset, if there is one. -/
def dropOffset (text : List Char) : List Char :=
  match text with
  | 'Z' :: rest | 'z' :: rest => rest
  | '+' :: rest | '-' :: rest =>
    let offset? := do
      let (_, rest) ← pair? 0 23 rest
      let rest ← mark? ':' rest
      let (_, rest) ← pair? 0 59 rest
      some rest
    offset?.getD text
  | text => text

/-- Takes a moment: a date, a time, or both. -/
def moment? (text : List Char) : Option (List Char) :=
  match date? text with
  | none => time? text
  | some rest =>
    match rest with
    | c :: after =>
      if c = 'T' ∨ c = 't' ∨ c = ' ' then some (((time? after).map dropOffset).getD rest)
      else some rest
    | [] => some []

/-- Reads a scalar. -/
def scalar (text : List Char) : Except Error (Scalar × List Char) :=
  match text with
  | [] => .error .unexpectedEnd
  | c :: _ =>
    if c = '\x22' ∨ c = '\x27' then do
      let (value, rest) ← string text
      .ok (.text value, rest)
    else if c = '+' ∨ c = '-' ∨ isDigit c then
      match moment? text with
      | some rest => .ok (.moment, rest)
      | none => number text
    else if c = 't' then word ['t', 'r', 'u', 'e'] (.boolean true) text
    else if c = 'f' then word ['f', 'a', 'l', 's', 'e'] (.boolean false) text
    else if c = 'i' then word ['i', 'n', 'f'] .real text
    else if c = 'n' then word ['n', 'a', 'n'] .real text
    else unexpected text

end Regeneration.Toml
