import Regeneration.Json.Error
import Regeneration.Json.Value

/-!
# JSON numbers

The digits of a number are gathered in a 64-bit significand. A whole number that
fits is kept whole, signed or unsigned. Any other number becomes a
floating-point number: digits beyond the significand only count towards the
exponent, and the significand is scaled by powers of ten. Numbers beyond the
floating-point range are refused; numbers too close to zero become zero.

`skip` passes a number by its grammar alone.
-/

set_option autoImplicit false

namespace Regeneration.Json.Numeral

/-- The greatest significand. -/
def maxSignificand : Nat := 0xFFFFFFFFFFFFFFFF

/-- The greatest exponent that is gathered. -/
def maxExponent : Nat := 0x7FFFFFFF

/-- Whether a character is a decimal digit. -/
def isDigit (c : Char) : Bool := '0' ≤ c && c ≤ '9'

/-- The value of a decimal digit. -/
def digitValue (c : Char) : Nat := c.toNat - '0'.toNat

/-- What follows the digits at the head of a text. -/
def dropDigits : List Char → List Char
  | [] => []
  | c :: rest => if isDigit c then dropDigits rest else c :: rest

/-- A power of ten as a floating-point number. -/
def powerOfTen (exponent : Nat) : Float := Float.ofScientific 1 false exponent

/-- Scales a number by a power of ten, in steps that stay in the range of
floating-point numbers; nothing if it leaves that range. -/
def scale? (value : Float) (exponent : Int) : Option Float :=
  if exponent.natAbs ≤ 308 then
    if 0 ≤ exponent then
      let scaled := value * powerOfTen exponent.natAbs
      if scaled.isInf then none else some scaled
    else some (value / powerOfTen exponent.natAbs)
  else if value == 0.0 then some value
  else if 0 ≤ exponent then none
  else scale? (value / powerOfTen 308) (exponent + 308)
termination_by exponent.natAbs

/-- The floating-point number of a sign, a significand and an exponent. -/
def real (negative : Bool) (significand : Nat) (exponent : Int) (rest : List Char) :
    Except Fault (Number × List Char) :=
  match scale? (UInt64.ofNat significand).toFloat exponent with
  | some value => .ok (.real (if negative then -value else value), rest)
  | none => .error ⟨.numberOutOfRange, .here, rest⟩

/-- An exponent kept within 32 bits. -/
def clamp (exponent : Int) : Int :=
  if exponent > 0x7FFFFFFF then 0x7FFFFFFF
  else if exponent < -0x80000000 then -0x80000000
  else exponent

/-- The digits of an exponent after its first. -/
def exponentDigits (negative : Bool) (significand : Nat) (start : Int) (up : Bool)
    (exponent : Nat) : List Char → Except Fault (Number × List Char)
  | [] => real negative significand (clamp (if up then start + exponent else start - exponent)) []
  | c :: rest =>
    if isDigit c then
      let next := exponent * 10 + digitValue c
      if next > maxExponent then
        if significand ≠ 0 ∧ up then .error ⟨.numberOutOfRange, .here, rest⟩
        else .ok (.real (if negative then -0.0 else 0.0), dropDigits rest)
      else exponentDigits negative significand start up next rest
    else real negative significand (clamp (if up then start + exponent else start - exponent))
      (c :: rest)

/-- The exponent, behind its letter. -/
def exponentPart (negative : Bool) (significand : Nat) (start : Int) (text : List Char) :
    Except Fault (Number × List Char) :=
  let (up, text) := match text with
    | '+' :: rest => (true, rest)
    | '-' :: rest => (false, rest)
    | text => (true, text)
  match text with
  | [] => .error ⟨.endInValue, .here, []⟩
  | c :: rest =>
    if isDigit c then exponentDigits negative significand start up (digitValue c) rest
    else .error ⟨.invalidNumber, .here, rest⟩

/-- What may follow the last gathered digit of a number with a fraction. -/
def afterFraction (negative : Bool) (significand : Nat) (exponent : Int) (text : List Char) :
    Except Fault (Number × List Char) :=
  match text with
  | c :: rest =>
    if c = 'e' ∨ c = 'E' then exponentPart negative significand exponent rest
    else real negative significand exponent text
  | [] => real negative significand exponent []

/-- The digits of a fraction, behind the point; `after` of them are gathered. -/
def fraction (negative : Bool) (start : Int) (significand after : Nat) :
    List Char → Except Fault (Number × List Char)
  | [] =>
    if after = 0 then .error ⟨.endInValue, .ahead, []⟩
    else real negative significand (start - after) []
  | c :: rest =>
    if isDigit c then
      let next := significand * 10 + digitValue c
      if next > maxSignificand then
        afterFraction negative significand (start - after) (dropDigits (c :: rest))
      else fraction negative start next (after + 1) rest
    else if after = 0 then .error ⟨.invalidNumber, .ahead, c :: rest⟩
    else afterFraction negative significand (start - after) (c :: rest)

/-- The digits of a whole part beyond the significand; each counts towards the
exponent. -/
def longWhole (negative : Bool) (significand : Nat) (exponent : Nat) :
    List Char → Except Fault (Number × List Char)
  | [] => real negative significand exponent []
  | c :: rest =>
    if isDigit c then longWhole negative significand (exponent + 1) rest
    else if c = '.' then fraction negative exponent significand 0 rest
    else afterFraction negative significand exponent (c :: rest)

/-- A whole number, kept whole if it fits. -/
def whole (negative : Bool) (significand : Nat) : Number :=
  if negative then
    if significand = 0 ∨ significand > 0x8000000000000000 then .real (-(UInt64.ofNat significand).toFloat)
    else .negative (significand - 1)
  else .natural significand

/-- What may follow a whole part that fits the significand. -/
def afterWhole (negative : Bool) (significand : Nat) (text : List Char) :
    Except Fault (Number × List Char) :=
  match text with
  | [] => .ok (whole negative significand, [])
  | c :: rest =>
    if c = '.' then fraction negative 0 significand 0 rest
    else if c = 'e' ∨ c = 'E' then exponentPart negative significand 0 rest
    else .ok (whole negative significand, text)

/-- The digits of a whole part after its first. -/
def wholeDigits (negative : Bool) (significand : Nat) :
    List Char → Except Fault (Number × List Char)
  | [] => afterWhole negative significand []
  | c :: rest =>
    if isDigit c then
      let next := significand * 10 + digitValue c
      if next > maxSignificand then longWhole negative significand 0 (c :: rest)
      else wholeDigits negative next rest
    else afterWhole negative significand (c :: rest)

/-- Reads a number behind its sign. A zero is not followed by more digits. -/
def read (negative : Bool) (text : List Char) : Except Fault (Number × List Char) :=
  match text with
  | [] => .error ⟨.endInValue, .here, []⟩
  | '0' :: rest =>
    match rest with
    | c :: _ =>
      if isDigit c then .error ⟨.invalidNumber, .ahead, rest⟩ else afterWhole negative 0 rest
    | [] => afterWhole negative 0 []
  | c :: rest =>
    if isDigit c then wholeDigits negative (digitValue c) rest
    else .error ⟨.invalidNumber, .here, rest⟩

/-- Passes an exponent behind its letter. -/
def skipExponent (text : List Char) : Except Fault (List Char) :=
  let text := match text with
    | '+' :: rest => rest
    | '-' :: rest => rest
    | text => text
  match text with
  | [] => .error ⟨.invalidNumber, .here, []⟩
  | c :: rest => if isDigit c then .ok (dropDigits rest) else .error ⟨.invalidNumber, .here, rest⟩

/-- Passes a fraction behind its point. -/
def skipFraction (text : List Char) : Except Fault (List Char) :=
  match text with
  | [] => .error ⟨.invalidNumber, .ahead, []⟩
  | c :: rest =>
    if isDigit c then
      match dropDigits rest with
      | [] => .ok []
      | c :: rest => if c = 'e' ∨ c = 'E' then skipExponent rest else .ok (c :: rest)
    else .error ⟨.invalidNumber, .ahead, c :: rest⟩

/-- Passes what may follow a whole part. -/
def skipAfterWhole (text : List Char) : Except Fault (List Char) :=
  match text with
  | [] => .ok []
  | c :: rest =>
    if c = '.' then skipFraction rest
    else if c = 'e' ∨ c = 'E' then skipExponent rest
    else .ok text

/-- Passes a number behind its sign. -/
def skip (text : List Char) : Except Fault (List Char) :=
  match text with
  | [] => .error ⟨.invalidNumber, .here, []⟩
  | '0' :: rest =>
    match rest with
    | c :: _ => if isDigit c then .error ⟨.invalidNumber, .ahead, rest⟩ else skipAfterWhole rest
    | [] => .ok []
  | c :: rest =>
    if isDigit c then skipAfterWhole (dropDigits rest) else .error ⟨.invalidNumber, .here, rest⟩

end Regeneration.Json.Numeral
