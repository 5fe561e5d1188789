import ObjectQuery.Expr.Basic

/-!
# The clause expressions of a model

The clause expressions of a model are those of its projection, its
orderings, its result operators, its filter and its having predicate, in
this order. The main source and the joins are not among them.
`mapClausesM` replaces each of them, one after the other, by what a
computation makes of it; if the computation fails, there is no new model.
-/

namespace ObjectQuery.QueryModel

/-- The clause expressions of a model. -/
def clauseExpressions (model : QueryModel) : List Expr :=
  model.selector.toList ++ model.orderings.map OrderClause.key ++
    model.operators.filterMap ResultOperator.operand? ++ model.filter.toList ++
    model.having.toList

section

variable {m : Type → Type} [Monad m]

/-- Replaces an expression that may be absent. -/
def mapOptionM (f : Expr → m Expr) : Option Expr → m (Option Expr)
  | none => pure none
  | some e => do return some (← f e)

/-- Replaces the key of an ordering. -/
def mapOrderingM (f : Expr → m Expr) (ordering : OrderClause) : m OrderClause := do
  return { ordering with key := ← f ordering.key }

/-- Replaces the expression that an operator carries, if it carries one. -/
def mapOperatorM (f : Expr → m Expr) (operator : ResultOperator) : m ResultOperator :=
  match operator.operand? with
  | none => pure operator
  | some e => do return operator.withOperand (← f e)

/-- The model with each clause expression replaced. -/
def mapClausesM (f : Expr → m Expr) (model : QueryModel) : m QueryModel := do
  let selector ← mapOptionM f model.selector
  let orderings ← model.orderings.mapM (mapOrderingM f)
  let operators ← model.operators.mapM (mapOperatorM f)
  let filter ← mapOptionM f model.filter
  let having ← mapOptionM f model.having
  return { model with selector, orderings, operators, filter, having }

end

end ObjectQuery.QueryModel
