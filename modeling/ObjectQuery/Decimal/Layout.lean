import ObjectQuery.Decimal.Shortest

/-!
# Written forms of decimals

The digits of a number are settled by `Binary.shortest`. What remains is
the layout: when the point is written in place, what follows a whole
number, and which of two equally short texts is taken. Two layouts are in
use. JSON text switches to an exponent for very large and very small
numbers and marks every float with a fraction; the text of a literal does
neither.
-/

namespace ObjectQuery.Decimal

/-- How the digits of a float become text. -/
structure Layout where
  /-- Which of two equally near decimals is taken. -/
  tie : Tie
  /-- The positions of the point, counted from the first digit, for which
  the point is written in place; outside of them an exponent is written.
  Without bounds the point is always written in place. -/
  inPlace : Option (Int × Int)
  /-- What is written after a number that has no fraction. -/
  wholeSuffix : String

/-- JSON text: fixed notation from `1e-5` up to below `1e16`, and a
fraction of at least one digit. -/
def Layout.json : Layout := ⟨.even, some (-4, 16), ".0"⟩

/-- Literal text: never an exponent, and no fraction where none is needed. -/
def Layout.plain : Layout := ⟨.up, none, ""⟩

/-- A run of zeros. -/
def zeros (n : Int) : List Char :=
  List.replicate n.toNat '0'

/-- Digits with the point written in place. -/
def Layout.placed (layout : Layout) (d : Digits) : List Char :=
  if d.point ≤ 0 then
    ['0', '.'] ++ zeros (-d.point) ++ d.digits
  else if d.digits.length ≤ d.point then
    d.digits ++ zeros (d.point - d.digits.length) ++ layout.wholeSuffix.toList
  else
    d.digits.take d.point.toNat ++ ['.'] ++ d.digits.drop d.point.toNat

/-- Digits with one of them before the point and an exponent, whose sign is
always written. -/
def scientific (d : Digits) : List Char :=
  let fraction := d.digits.drop 1
  let exponent := d.point - 1
  d.digits.take 1 ++ (if fraction.isEmpty then [] else '.' :: fraction) ++ ['e'] ++
    (if exponent < 0 then ['-'] else ['+']) ++ Nat.toDigits 10 exponent.natAbs

/-- The text of the magnitude of a finite float. -/
def Layout.magnitude (layout : Layout) (x : Float) : List Char :=
  let binary := Binary.ofFloat x
  if binary.mantissa = 0 then
    '0' :: layout.wholeSuffix.toList
  else
    let digits := binary.shortest layout.tie
    match layout.inPlace with
    | none => layout.placed digits
    | some (least, greatest) =>
      if least ≤ digits.point ∧ digits.point ≤ greatest then layout.placed digits
      else scientific digits

/-- The text of a float. -/
def Layout.text (layout : Layout) (x : Float) : String :=
  if x.isNaN then "NaN"
  else
    let magnitude := if x.isInf then "inf".toList else layout.magnitude x
    String.ofList (if isNegative x then '-' :: magnitude else magnitude)

end ObjectQuery.Decimal
