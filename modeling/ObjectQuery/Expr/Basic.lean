import ObjectQuery.Literal

/-!
# Expressions and query models

A query is a *model*: an ordered composition of clauses. It reads the items
of a main source, may join further sources, filter, order and project, and
ends in result operators that page, reduce or test what is left. The
clauses hold expressions, and an expression may hold a whole model as a
subquery, so the two are defined together.

The branches of a conditional and of a coalesce and the main source of a
model may be missing. A tree with such a gap is malformed and is refused
where the gap matters; until then it can be looked at and printed like any
other.
-/

namespace ObjectQuery

/-! ## Operators -/

/-- An operator with one operand. -/
inductive UnaryOperator where
  | not
  | negate
  /-- A cast to the type that stands beside it. -/
  | convert
  deriving DecidableEq, Inhabited

/-- An operator with two operands. -/
inductive BinaryOperator where
  | add
  | subtract
  | multiply
  | divide
  | equal
  | notEqual
  | lessThan
  | lessThanOrEqual
  | greaterThan
  | greaterThanOrEqual
  | and
  | or
  deriving DecidableEq, Inhabited

/-- Whether an operator computes a number; the others give a truth value. -/
def BinaryOperator.isArithmetic : BinaryOperator → Bool
  | .add | .subtract | .multiply | .divide => true
  | _ => false

/-- The direction in which a key orders. -/
inductive Direction where
  | ascending
  | descending
  deriving DecidableEq, Inhabited

/-- The name of a direction in texts. -/
def Direction.text : Direction → String
  | .ascending => "asc"
  | .descending => "desc"

/-! ## Signatures -/

/-- What identifies a method: the type that declares it, its name and the
types of its parameters. -/
structure MethodSignature where
  declaringType : String
  name : String
  parameterTypes : List StaticType
  deriving DecidableEq, Inhabited

/-- The text of a signature. -/
def MethodSignature.text (s : MethodSignature) : String :=
  s.declaringType ++ "." ++ s.name ++ "(" ++
    ", ".intercalate (s.parameterTypes.map StaticType.text) ++ ")"

/-! ## Trees -/

mutual

/-- An expression of a query. -/
inductive Expr where
  | constant (value : Literal)
  /-- A value supplied when the query runs. -/
  | parameter (name : String) (type : StaticType)
  | unary (operator : UnaryOperator) (operand : Expr) (type : StaticType)
  | binary (operator : BinaryOperator) (left right : Expr)
  /-- A property of a row. -/
  | member (target : Expr) (name : String) (type : StaticType)
  /-- A call, on a target or, for a static method, without one. -/
  | call (method : MethodSignature) (target : Option Expr) (arguments : List Expr)
      (type : StaticType)
  | conditional (test : Expr) (whenTrue whenFalse : Option Expr)
  /-- The left operand, or the right one where the left is null. -/
  | coalesce (left right : Option Expr)
  /-- The current item of the source of that name. -/
  | source (name : String) (type : StaticType)
  | subquery (model : QueryModel)

/-- A further source, joined on the equality of two keys. -/
structure JoinClause where
  /-- The name by which other clauses refer to an item of the source. -/
  item : String
  itemType : StaticType
  sequence : Expr
  outerKey : Expr
  innerKey : Expr

/-- A key to order by. -/
structure OrderClause where
  key : Expr
  direction : Direction

/-- An operator on the sequence of results. -/
inductive ResultOperator where
  | count
  | longCount
  | any
  | all (predicate : Expr)
  | first
  | single
  | take (count : Expr)
  | skip (count : Expr)
  | distinct
  | contains (item : Expr)
  | sum
  | min
  | max
  | average

/-- A query or subquery. -/
structure QueryModel where
  /-- The name by which the clauses refer to an item of the main source. -/
  item : String
  itemType : StaticType
  /-- The main source; missing in a malformed model only. -/
  source : Option Expr
  joins : List JoinClause
  filter : Option Expr
  having : Option Expr
  orderings : List OrderClause
  /-- The projection; without one the items themselves are the results. -/
  selector : Option Expr
  /-- Result operators, in the order in which they apply. -/
  operators : List ResultOperator

end

instance : Inhabited Expr := ⟨.constant .null⟩

/-- Whether an expression is the null constant itself. -/
def Expr.isNullConstant : Expr → Bool
  | .constant .null => true
  | _ => false

/-- Whether an expression is a conditional or a coalesce. -/
def Expr.isBranching : Expr → Bool
  | .conditional .. => true
  | .coalesce .. => true
  | _ => false

/-! ## Result operators -/

/-- The expression an operator carries, if any. -/
def ResultOperator.operand? : ResultOperator → Option Expr
  | .all e | .take e | .skip e | .contains e => some e
  | _ => none

/-- The operator with another expression in place of the one it carries. -/
def ResultOperator.withOperand : ResultOperator → Expr → ResultOperator
  | .all _, e => .all e
  | .take _, e => .take e
  | .skip _, e => .skip e
  | .contains _, e => .contains e
  | operator, _ => operator

/-- Whether an operator reduces the sequence to a single value. -/
def ResultOperator.isScalar : ResultOperator → Bool
  | .take _ | .skip _ | .distinct => false
  | _ => true

/-! ## Models -/

namespace QueryModel

/-- A model that reads from a source and has no further clause. -/
def ofSource (item : String) (itemType : StaticType) (source : Expr) : QueryModel :=
  ⟨item, itemType, some source, [], none, none, [], none, []⟩

/-- The model with another main source. -/
def withSource (model : QueryModel) (source : Expr) : QueryModel :=
  { model with source := some source }

/-- The names that the sources of the model itself introduce. -/
def sourceNames (model : QueryModel) : List String :=
  model.item :: model.joins.map JoinClause.item

/-- The last operator that reduces the sequence to a single value. -/
def reduction? (model : QueryModel) : Option ResultOperator :=
  model.operators.reverse.find? ResultOperator.isScalar

/-- One more step in building a model. -/
inductive Step where
  | join (clause : JoinClause)
  | filter (predicate : Expr)
  | having (predicate : Expr)
  | ordering (key : Expr) (direction : Direction)
  | select (selector : Expr)
  | operator (operator : ResultOperator)
  | source (source : Expr)

/-- The model after a step: joins, orderings and operators are added at the
end, every other clause replaces what was there. -/
def after (model : QueryModel) : Step → QueryModel
  | .join clause => { model with joins := model.joins ++ [clause] }
  | .filter predicate => { model with filter := some predicate }
  | .having predicate => { model with having := some predicate }
  | .ordering key direction => { model with orderings := model.orderings ++ [⟨key, direction⟩] }
  | .select selector => { model with selector := some selector }
  | .operator operator => { model with operators := model.operators ++ [operator] }
  | .source source => model.withSource source

end QueryModel

end ObjectQuery
