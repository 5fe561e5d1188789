/-!
# Numerals

A numeral is an optional minus sign, a whole part without a superfluous
leading zero, and then perhaps a fraction and perhaps an exponent.

Reading the value works with one whole number, the significand, and one
power of ten. Digits are taken into the significand as long as it fits into
sixty-four bits. Of the digits after that, those of the whole part only
raise the power, and those of the fraction are dropped. The result is the
double nearest to the significand, then multiplied or divided by the power
of ten once, or twice where the power is below the smallest double. This is
exact for numerals of up to fifteen digits and moderate size and otherwise
off by a unit in the last place at most of the time.
-/

namespace ObjectQuery.Json

/-- The parts of a numeral. -/
structure Numeral where
  negative : Bool
  /-- Digits before the point. -/
  whole : List Char
  /-- Digits after the point, if there is one. -/
  fraction : Option (List Char)
  /-- The exponent, if there is one. -/
  exponent : Option Int

/-- The number that a row of digits writes. -/
def digitsValue (digits : List Char) : Nat :=
  digits.foldl (fun n c => 10 * n + (c.toNat - '0'.toNat)) 0

/-- Whether a row of digits may stand before the point. -/
def isWholePart : List Char → Bool
  | [] => false
  | [_] => true
  | c :: _ => c != '0'

/-- Reads an exponent after its mark: an optional sign and digits up to the
end. -/
def readExponent (cs : List Char) : Option Int :=
  let (negative, digits) :=
    match cs with
    | '-' :: rest => (true, rest)
    | '+' :: rest => (false, rest)
    | _ => (false, cs)
  if digits.isEmpty || !digits.all Char.isDigit then none
  else
    let magnitude : Int := digitsValue digits
    some (if negative then -magnitude else magnitude)

/-- Reads the exponent, or nothing, at the end of a numeral. -/
def readScale : List Char → Option (Option Int)
  | [] => some none
  | c :: rest => if c = 'e' || c = 'E' then (readExponent rest).map some else none

/-- Cuts a numeral into its parts. -/
def Numeral.ofChars? (cs : List Char) : Option Numeral :=
  let (negative, unsigned) :=
    match cs with
    | '-' :: rest => (true, rest)
    | _ => (false, cs)
  let whole := unsigned.takeWhile Char.isDigit
  if isWholePart whole then
    match unsigned.dropWhile Char.isDigit with
    | '.' :: rest =>
      let fraction := rest.takeWhile Char.isDigit
      if fraction.isEmpty then none
      else (readScale (rest.dropWhile Char.isDigit)).map (⟨negative, whole, some fraction, ·⟩)
    | rest => (readScale rest).map (⟨negative, whole, none, ·⟩)
  else
    none

/-! ## Values -/

/-- Greatest significand. -/
def maxSignificand : Nat := 0xFFFFFFFFFFFFFFFF

/-- Greatest magnitude of a negative whole number. -/
def maxNegative : Nat := 0x8000000000000000

/-- Takes digits into the significand while it fits, and counts them. What
is left out comes second. -/
def takeDigits (significand : Nat) : List Char → Nat × Nat × List Char
  | [] => (significand, 0, [])
  | c :: cs =>
    let next := 10 * significand + (c.toNat - '0'.toNat)
    if next ≤ maxSignificand then
      let (result, taken, rest) := takeDigits next cs
      (result, taken + 1, rest)
    else
      (significand, 0, c :: cs)

/-- A power of ten as a double. -/
def tenTo (n : Nat) : Float :=
  Float.ofScientific 1 false n

/-- The significand, as a double, times a power of ten. A value beyond the
doubles is refused. -/
def scale (significand : Nat) (exponent : Int) : Option Float :=
  let x := Float.ofNat significand
  if significand = 0 then some 0.0
  else if 308 < exponent then none
  else if 0 ≤ exponent then
    let product := x * tenTo exponent.toNat
    if product.isInf then none else some product
  else if -308 ≤ exponent then some (x / tenTo (-exponent).toNat)
  else if -616 ≤ exponent then some (x / tenTo 308 / tenTo (-exponent - 308).toNat)
  else some 0.0

/-- The value of a numeral as a double. -/
def Numeral.float? (n : Numeral) : Option Float :=
  let (whole, _, surplus) := takeDigits 0 n.whole
  let (significand, taken, _) := takeDigits whole (n.fraction.getD [])
  let exponent : Int := surplus.length - taken + n.exponent.getD 0
  (scale significand exponent).map fun x => if n.negative then -x else x

/-- The value of a numeral that is written without point and exponent and
lies in the range of sixty-four bits, signed or unsigned. Zero with a minus
sign is not among them. -/
def Numeral.integer? (n : Numeral) : Option Int :=
  if n.fraction.isSome || n.exponent.isSome then none
  else
    let magnitude := digitsValue n.whole
    if n.negative then
      if 0 < magnitude && magnitude ≤ maxNegative then some (-(magnitude : Int)) else none
    else if magnitude ≤ maxSignificand then some magnitude
    else none

end ObjectQuery.Json
