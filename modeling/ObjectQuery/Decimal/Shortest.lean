/-!
# The shortest decimal that reads back

A finite double is `m · 2 ^ q` for whole numbers `m` and `q`, and the reals
that round to it form an interval around it, whose ends belong to it
exactly when `m` is even. Among the decimals in that interval this module
finds one with the fewest digits, and among those the one nearest to the
double. Where two are equally near, `Tie` decides.

For one digit, two digits and so on up to seventeen, which always suffice,
only the two neighbours of the double on that decimal grid are tried: if
any point of the grid lies in the interval, so does one of these two. All
comparisons are between whole numbers, so nothing is rounded on the way.
-/

namespace ObjectQuery.Decimal

/-! ## Doubles as whole numbers -/

/-- The magnitude of a finite double: `mantissa · 2 ^ exponent`. -/
structure Binary where
  mantissa : Nat
  exponent : Int
  /-- The double below is only half a step away, as it is below a power of
  two. -/
  narrowBelow : Bool

/-- One more than the greatest value of a fraction field. -/
def fractionSize : Nat := 0x10000000000000

/-- The exponent field of a double, eleven bits wide. -/
def exponentField (x : Float) : Nat :=
  (x.toBits.toNat >>> 52) % 2048

/-- The fraction field of a double, fifty-two bits wide. -/
def fractionField (x : Float) : Nat :=
  x.toBits.toNat % fractionSize

/-- Whether the sign bit of a double is set, as it is in `-0.0`. -/
def isNegative (x : Float) : Bool :=
  x.toBits.toNat >>> 63 == 1

/-- The magnitude of a finite double, taken from its fields. -/
def Binary.ofFloat (x : Float) : Binary :=
  let field := exponentField x
  let fraction := fractionField x
  if field = 0 then
    ⟨fraction, -1074, false⟩
  else
    ⟨fractionSize + fraction, (field : Int) - 1075, fraction == 0 && 1 < field⟩

/-! ## Digits -/

/-- A decimal `0.d₁d₂… · 10 ^ point` with no zero at either end of its
digits. -/
structure Digits where
  digits : List Char
  point : Int

/-- Which of two equally near decimals is taken. -/
inductive Tie where
  /-- The one whose last digit is even. -/
  | even
  /-- The greater one. -/
  | up

/-- How many digits a positive number has. -/
def digitCount (n : Nat) : Nat :=
  (Nat.toDigits 10 n).length

/-- The power `base ^ e` as a fraction of two whole numbers. -/
def powerFraction (base : Nat) (e : Int) : Nat × Nat :=
  if 0 ≤ e then (Nat.pow base e.toNat, 1) else (1, Nat.pow base (-e).toNat)

/-- For a positive magnitude, the `k` with `10 ^ k ≤ magnitude < 10 ^ (k + 1)`. -/
def Binary.decimalExponent (b : Binary) : Int :=
  let (up, down) := powerFraction 2 b.exponent
  let numerator := b.mantissa * up
  if down ≤ numerator then
    digitCount (numerator / down) - 1
  else
    -(digitCount ((down - 1) / numerator) : Int)

/-- The point of the grid `10 ^ e` that stands for `b`, if one lies in the
interval of `b`. Quarters of a step of `b` are the unit of the interval. -/
def Binary.onGrid (tie : Tie) (b : Binary) (e : Int) : Option Nat :=
  let (twoUp, twoDown) := powerFraction 2 (b.exponent - 2)
  let (tenUp, tenDown) := powerFraction 10 e
  let unit := twoUp * tenDown
  let step := tenUp * twoDown
  let value := 4 * b.mantissa * unit
  let low := value - (if b.narrowBelow then 1 else 2) * unit
  let high := value + 2 * unit
  let inside (c : Nat) : Bool :=
    if b.mantissa % 2 = 0 then low ≤ c * step && c * step ≤ high
    else low < c * step && c * step < high
  let below := value / step
  let twiceRest := 2 * (value % step)
  match inside below, inside (below + 1) with
  | true, false => some below
  | false, true => some (below + 1)
  | false, false => none
  | true, true =>
    if twiceRest < step then some below
    else if step < twiceRest then some (below + 1)
    else
      match tie with
      | .up => some (below + 1)
      | .even => some (if below % 2 = 0 then below else below + 1)

/-- The digits of the grid point `c · 10 ^ e`, without the zeros at its end. -/
def Digits.ofGridPoint (c : Nat) (e : Int) : Digits :=
  let written := Nat.toDigits 10 c
  ⟨(written.reverse.dropWhile (· == '0')).reverse, written.length + e⟩

/-- The shortest decimal that reads back as the positive magnitude `b`. -/
def Binary.shortest (tie : Tie) (b : Binary) : Digits :=
  let k := b.decimalExponent
  let found := (List.range 17).findSome? fun (n : Nat) =>
    let e := k - n
    (b.onGrid tie e).map fun c => Digits.ofGridPoint c e
  found.getD ⟨[], 0⟩

end ObjectQuery.Decimal
