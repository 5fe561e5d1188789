import ObjectQuery.Engine.Error
import ObjectQuery.Text.LikePattern

/-!
# Operators on values

The operators of the query language with both operands known. Truth values
follow three-valued logic, where null is the unknown one: a conjunction is
false as soon as one side is, a disjunction true as soon as one side is, and
otherwise an unknown side makes the result unknown. Comparisons and
arithmetic with null give null.

Integers stay exact or fail. Where an operand is a decimal, both are taken
as doubles. Two strings can be added. A whole number divided by zero is
null.
-/

namespace ObjectQuery.Value

/-! ## Truth values -/

/-- Whether a value is a truth value or unknown. -/
def isTruthOrNull : Value → Bool
  | .boolean _ | .null => true
  | _ => false

/-- The error of a connective one of whose operands is no truth value: the
left one, if it is not, and otherwise the right one. -/
def connectiveMismatch (operation : Operation) (left right : Value) : Outcome Value :=
  if left.isTruthOrNull then mismatch operation right else mismatch operation left

/-- A connective that the truth value `dominant` on either side decides. -/
def connective (operation : Operation) (dominant : Bool) : Value → Value → Outcome Value
  | .boolean a, .boolean b =>
    .ok (.boolean (if a = dominant || b = dominant then dominant else !dominant))
  | .boolean a, right =>
    if a = dominant then .ok (.boolean dominant)
    else if right.isNull then .ok .null
    else connectiveMismatch operation (.boolean a) right
  | left, .boolean b =>
    if b = dominant then .ok (.boolean dominant)
    else if left.isNull then .ok .null
    else connectiveMismatch operation left (.boolean b)
  | left, right =>
    if left.isNull && right.isNull then .ok .null else connectiveMismatch operation left right

/-- The negation of a truth value. -/
def not : Value → Outcome Value
  | .boolean b => .ok (.boolean !b)
  | .null => .ok .null
  | v => mismatch .not v

/-! ## Numbers -/

/-- The negative of a number. -/
def negate : Value → Outcome Value
  | .integer n => orOverflow .negation (Word64.neg? n)
  | .decimal x => .ok (.decimal (-x))
  | .null => .ok .null
  | v => mismatch .negation v

/-- Arithmetic on words. Division by zero is null. -/
def integerArithmetic (operator : BinaryOperator) (a b : Int64) : Outcome Value :=
  match operator with
  | .add => orOverflow (.arithmetic operator a b) (Word64.add? a b)
  | .subtract => orOverflow (.arithmetic operator a b) (Word64.sub? a b)
  | .multiply => orOverflow (.arithmetic operator a b) (Word64.mul? a b)
  | _ =>
    if b = 0 then .ok .null
    else orOverflow (.arithmetic operator a b) (Word64.div? a b)

/-- Arithmetic on doubles. -/
def floatArithmetic (operator : BinaryOperator) (x y : Float) : Float :=
  match operator with
  | .add => x + y
  | .subtract => x - y
  | .multiply => x * y
  | _ => x / y

/-- Arithmetic on numbers that are not both integers. An operand that is no
number is an error, the left one first. -/
def mixedArithmetic (operator : BinaryOperator) (left right : Value) : Outcome Value :=
  match left.number?, right.number? with
  | some x, some y => .ok (.decimal (floatArithmetic operator x y))
  | none, _ => mismatch .arithmetic left
  | some _, none => mismatch .arithmetic right

/-- Addition, subtraction, multiplication and division. -/
def arithmetic (operator : BinaryOperator) (left right : Value) : Outcome Value :=
  if left.isNull || right.isNull then .ok .null
  else
    match left, right with
    | .integer a, .integer b => integerArithmetic operator a b
    | .string s, .string t =>
      if operator = .add then .ok (.string (s ++ t)) else mismatch .arithmetic left
    | left, right => mixedArithmetic operator left right

/-! ## Comparisons -/

/-- Whether an order relation holds between two values. -/
def ordered (holds : Ordering → Bool) (left right : Value) : Outcome Value :=
  if left.isNull || right.isNull then .ok .null
  else
    match left.compare? right with
    | some ordering => .ok (.boolean (holds ordering))
    | none => mismatch .comparison right

/-- An operator with two operands. -/
def binary (operator : BinaryOperator) (left right : Value) : Outcome Value :=
  match operator with
  | .and => connective .and false left right
  | .or => connective .or true left right
  | .equal => .ok (ofTruth (left.equals? right))
  | .notEqual => .ok (ofTruth ((left.equals? right).map (!·)))
  | .lessThan => ordered (· == .lt) left right
  | .lessThanOrEqual => ordered (· != .gt) left right
  | .greaterThan => ordered (· == .gt) left right
  | .greaterThanOrEqual => ordered (· != .lt) left right
  | .add | .subtract | .multiply | .divide => arithmetic operator left right

/-! ## Casts -/

/-- A cast of a value to a type without nullability around it. A decimal
cast to an integer loses its fraction and stays within a word. -/
def castNonNull : StaticType → Value → Value
  | .integer, .decimal x => .integer x.toInt64
  | .decimal, .integer n => .decimal (Word64.toDouble n)
  | .string, .string s => .string s
  | .string, v => .string v.text
  | _, v => v

/-- A cast. Null stays null. -/
def cast (type : StaticType) (v : Value) : Value :=
  if v.isNull then .null else castNonNull type.nonNull v

/-! ## Matching -/

/-- Whether a text matches a pattern. -/
def like (escape : Option Char) (subject pattern : Value) : Outcome Value :=
  match subject, pattern with
  | .string s, .string p => .ok (.boolean (Text.Like.isMatch escape p s))
  | subject, pattern =>
    if subject.isNull || pattern.isNull then .ok .null else mismatch .like subject

/-- Whether an item equals one of several values. -/
def isAmong (item : Value) (values : List Value) : Bool :=
  values.any fun v => v.equals? item == some true

end ObjectQuery.Value
