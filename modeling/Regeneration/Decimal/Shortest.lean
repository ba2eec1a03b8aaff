/-!
# The shortest decimal text of a floating-point number

A positive finite number is `m * 2 ^ q`. The reals that round to it form an
interval, whose ends belong to it when `m` is even. Among the decimals in the
interval those with the fewest digits are wanted, and of these the nearest to the
number; halfway between two, the one with the even last digit is taken.

For a given count of digits only the two decimals next to the number matter: if
any decimal with that many digits lies in the interval, one of these two does.
They are tried for one digit, two digits, and so on; seventeen are always enough.

Main statement: `exponent_of_fewest`, what is found is a nearest decimal at some
exponent.
-/

set_option autoImplicit false

namespace Regeneration.Decimal

/-- A positive finite number `significand * 2 ^ exponent`, and whether the next
smaller number is only half as far away as the next greater one. -/
structure Binary where
  significand : Nat
  exponent : Int
  isBoundary : Bool
  deriving DecidableEq, Repr

/-- The decimal `digits * 10 ^ exponent`. -/
structure Scaled where
  digits : Nat
  exponent : Int
  deriving DecidableEq, Repr

/-- The magnitude of a finite double, from its bits. -/
def Binary.ofBits (bits : UInt64) : Binary :=
  let fraction := (bits &&& 0xFFFFFFFFFFFFF).toNat
  let scale := ((bits >>> 52) &&& 0x7FF).toNat
  if scale = 0 then ⟨fraction, -1074, false⟩
  else ⟨fraction + 0x10000000000000, scale - 1075, fraction == 0 && scale > 1⟩

/-- Quarters of the last binary place: the number, and the ends of the interval
of reals that round to it. -/
def Binary.quarters (number : Binary) : Nat × Nat × Nat :=
  let value := 4 * number.significand
  (value - (if number.isBoundary then 1 else 2), value, value + 2)

/-- Two factors by which a decimal with the given exponent and a count of quarters
are brought to one unit. -/
def units (number : Binary) (exponent : Int) : Nat × Nat :=
  let shift := number.exponent - 2
  (Nat.pow 10 exponent.toNat * Nat.pow 2 (-shift).toNat,
    Nat.pow 10 (-exponent).toNat * Nat.pow 2 shift.toNat)

/-- Whether `digits * 10 ^ exponent` rounds to the number. -/
def roundsTo (number : Binary) (candidate : Scaled) : Bool :=
  let (low, _, high) := number.quarters
  let (decimal, binary) := units number candidate.exponent
  let point := candidate.digits * decimal
  if number.significand % 2 = 0 then low * binary ≤ point && point ≤ high * binary
  else low * binary < point && point < high * binary

/-- The decimal at the given exponent that is next to the number, rounds to it,
and is nearest, if there is one. -/
def nearestAt? (number : Binary) (exponent : Int) : Option Scaled :=
  let (_, value, _) := number.quarters
  let (decimal, binary) := units number exponent
  let below := value * binary / decimal
  let lower : Scaled := ⟨below, exponent⟩
  let upper : Scaled := ⟨below + 1, exponent⟩
  let twice := 2 * (value * binary - below * decimal)
  match roundsTo number lower && below != 0, roundsTo number upper with
  | false, false => none
  | true, false => some lower
  | false, true => some upper
  | true, true =>
    if twice < decimal then some lower
    else if decimal < twice then some upper
    else if below % 2 = 0 then some lower
    else some upper

/-- The number of decimal digits. -/
def digitCount (value : Nat) : Nat := (Nat.toDigits 10 value).length

/-- The exponent of the first decimal digit of a positive number. -/
def leadingExponent (number : Binary) : Int :=
  if 0 ≤ number.exponent then
    (digitCount (number.significand * Nat.pow 2 number.exponent.toNat) : Int) - 1
  else
    let places := (-number.exponent).toNat
    (digitCount (number.significand * Nat.pow 10 places / Nat.pow 2 places) : Int) - 1 - places

/-- Tries one count of digits after another, from the leading digit's exponent
down. -/
def fewest (number : Binary) (leading : Int) : Nat → Option Scaled
  | 0 => none
  | bound + 1 =>
    match nearestAt? number leading with
    | some found => some found
    | none => fewest number (leading - 1) bound

/-- The decimal without zeros at its end. -/
def strip : Nat → Scaled → Scaled
  | 0, number => number
  | bound + 1, number =>
    if number.digits % 10 = 0 ∧ number.digits ≠ 0 then
      strip bound ⟨number.digits / 10, number.exponent + 1⟩
    else number

/-- The shortest decimal that rounds to a positive number. -/
def shortest (number : Binary) : Scaled :=
  match fewest number (leadingExponent number) 18 with
  | some found => strip 18 found
  | none => ⟨0, 0⟩

/-- Where positional notation begins and ends. -/
structure Format where
  /-- The least exponent of the first digit that is written positionally. -/
  leastExponent : Int
  /-- The greatest exponent of the first digit that is written positionally. -/
  greatestExponent : Int
  deriving DecidableEq, Repr

/-- A positive decimal in positional notation, with at least one digit on either
side of the point. -/
def positional (digits : List Char) (leading : Int) : List Char :=
  if leading < 0 then
    '0' :: '.' :: (List.replicate (-leading - 1).toNat '0' ++ digits)
  else
    let before := leading.toNat + 1
    let whole := digits.take before ++ List.replicate (before - digits.length) '0'
    match digits.drop before with
    | [] => whole ++ ['.', '0']
    | fraction => whole ++ '.' :: fraction

/-- A positive decimal with an exponent that always has its sign. -/
def scientific (digits : List Char) (leading : Int) : List Char :=
  let mantissa := match digits with
    | [] => []
    | [digit] => [digit]
    | digit :: fraction => digit :: '.' :: fraction
  let sign := if leading < 0 then '-' else '+'
  mantissa ++ 'e' :: sign :: Nat.toDigits 10 leading.natAbs

/-- The shortest text of a finite double in a format; a zero keeps its sign. -/
def format (format : Format) (value : Float) : List Char :=
  let bits := value.toBits
  let sign := if bits >>> 63 = 0 then [] else ['-']
  let number := Binary.ofBits bits
  if number.significand = 0 then sign ++ ['0', '.', '0']
  else
    let decimal := shortest number
    let digits := Nat.toDigits 10 decimal.digits
    let leading := decimal.exponent + digits.length - 1
    if format.leastExponent ≤ leading ∧ leading ≤ format.greatestExponent then
      sign ++ positional digits leading
    else sign ++ scientific digits leading

/-- A decimal found at some exponent is one that was tried. -/
theorem exponent_of_fewest {number : Binary} {leading : Int} {bound : Nat} {found : Scaled}
    (h : fewest number leading bound = some found) :
    ∃ exponent, nearestAt? number exponent = some found := by
  induction bound generalizing leading with
  | zero => cases h
  | succ bound ih =>
      rw [fewest] at h
      split at h
      · next held => exact ⟨leading, held.trans h⟩
      · exact ih h

end Regeneration.Decimal
