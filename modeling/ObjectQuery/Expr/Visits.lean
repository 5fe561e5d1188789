import ObjectQuery.Expr.Basic

/-!
# Walking an expression

A walk goes through an expression from the root, each node before its
operands and these from left to right, and stops for the nodes that mean
something by themselves: constants, parameters, references to a source,
calls, conditionals, coalesces and subqueries. Operators, casts and
properties are passed through. A subquery is one stop; the walk does not
enter its model. A missing branch is passed over.

`Expr.visits` lists the stops. Whoever walks to find one answer takes the
answer given at stop number `Expr.answeringVisit`: the first stop, except
that an operator is answered for by its right operand.
-/

namespace ObjectQuery

mutual

/-- The nodes at which a walk stops, in order. -/
def Expr.visits : Expr → List Expr
  | .constant value => [.constant value]
  | .parameter name type => [.parameter name type]
  | .source name type => [.source name type]
  | .subquery model => [.subquery model]
  | .unary _ operand _ => operand.visits
  | .binary _ left right => left.visits ++ right.visits
  | .member target _ _ => target.visits
  | .call method target arguments type =>
    .call method target arguments type :: (optionVisits target ++ listVisits arguments)
  | .conditional test whenTrue whenFalse =>
    .conditional test whenTrue whenFalse ::
      (test.visits ++ optionVisits whenTrue ++ optionVisits whenFalse)
  | .coalesce left right => .coalesce left right :: (optionVisits left ++ optionVisits right)

/-- The stops of a walk through an operand that may be absent. -/
def optionVisits : Option Expr → List Expr
  | none => []
  | some e => e.visits

/-- The stops of a walk through several operands. -/
def listVisits : List Expr → List Expr
  | [] => []
  | e :: rest => e.visits ++ listVisits rest

end

/-- The number, from zero, of the stop whose answer is that of the walk. -/
def Expr.answeringVisit : Expr → Nat
  | .unary _ operand _ => operand.answeringVisit
  | .binary _ left right => left.visits.length + right.answeringVisit
  | .member target _ _ => target.answeringVisit
  | _ => 0

/-- Whether an expression is a subquery. -/
def Expr.isSubquery : Expr → Bool
  | .subquery _ => true
  | _ => false

/-- How many subqueries an expression holds, not counting those inside of
another subquery. -/
def Expr.subqueryCount (e : Expr) : Nat :=
  e.visits.countP Expr.isSubquery

end ObjectQuery
