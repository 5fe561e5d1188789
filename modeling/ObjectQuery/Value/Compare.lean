import ObjectQuery.Value.Basic
import ObjectQuery.Expr.Basic

/-!
# Comparing values

Values are compared in four ways.

* `same` is plain equality: of one kind, and equal. Rows are the same when
  they have the same members, in whatever order.
* `equals?` is the equality of queries. It is unknown when either side is
  null, and it compares integers with decimals as numbers.
* `compare?` is the order of queries, between two numbers, two strings or
  two truth values, and unknown for anything else.
* `sortCompare` is what sorting uses: null comes first, and two values that
  have no order between them count as equal.
-/

namespace ObjectQuery.Value

/-! ## Equality -/

mutual

/-- Whether two values are of one kind and equal. -/
def same : Value → Value → Bool
  | .null, .null => true
  | .boolean a, .boolean b => a == b
  | .integer a, .integer b => a == b
  | .decimal a, .decimal b => a == b
  | .string a, .string b => a == b
  | .row a, .row b => a.length == b.length && Json.sameMembers a b
  | .list as, .list bs => sameItems as bs
  | _, _ => false

/-- Whether two lists hold the same values in the same order. -/
def sameItems : List Value → List Value → Bool
  | [], [] => true
  | a :: as, b :: bs => a.same b && sameItems as bs
  | _, _ => false

end

/-- A number as a double. -/
def number? : Value → Option Float
  | .integer n => some (Word64.toDouble n)
  | .decimal x => some x
  | _ => none

/-- Whether two values are equal, as queries understand it. -/
def equals? (a b : Value) : Option Bool :=
  if a.isNull || b.isNull then none
  else
    match a, b with
    | .integer m, .integer n => some (m == n)
    | a, b =>
      match a.number?, b.number? with
      | some x, some y => some (x == y)
      | _, _ => some (a.same b)

/-! ## Order -/

/-- The order of two doubles, which a NaN does not have. -/
def compareFloats? (x y : Float) : Option Ordering :=
  if x < y then some .lt
  else if x == y then some .eq
  else if y < x then some .gt
  else none

/-- The order of two values, as queries understand it. -/
def compare? : Value → Value → Option Ordering
  | .integer m, .integer n => some (compare m n)
  | .string s, .string t => some (compare s t)
  | .boolean a, .boolean b => some (compare a b)
  | a, b => do compareFloats? (← a.number?) (← b.number?)

/-- The order in which values are sorted. -/
def sortCompare (a b : Value) : Ordering :=
  match a.isNull, b.isNull with
  | true, true => .eq
  | true, false => .lt
  | false, true => .gt
  | false, false => (a.compare? b).getD .eq

/-- The order in which values are sorted in a direction. -/
def directedCompare (direction : Direction) (a b : Value) : Ordering :=
  match direction with
  | .ascending => a.sortCompare b
  | .descending => b.sortCompare a

/-- The order of two rows of keys: that of the first keys that differ. -/
def compareKeys : List Direction → List Value → List Value → Ordering
  | direction :: directions, a :: as, b :: bs =>
    match directedCompare direction a b with
    | .eq => compareKeys directions as bs
    | ordering => ordering
  | _, _, _ => .eq

/-- The least (`.lt`) or greatest (`.gt`) of several values, nulls left
out; of equal ones the first. -/
def extreme (wanted : Ordering) (values : List Value) : Value :=
  let better (best : Option Value) (v : Value) : Option Value :=
    match best with
    | some b => if v.sortCompare b = wanted then some v else some b
    | none => some v
  ((values.filter fun v => !v.isNull).foldl better none).getD .null

end ObjectQuery.Value
