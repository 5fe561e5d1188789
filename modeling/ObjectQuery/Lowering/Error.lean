import ObjectQuery.Expr.Branches
import ObjectQuery.Expr.Text

/-!
# Why a model cannot be lowered

Each cause with what its message needs to say. The order of result
operators is at fault in two ways: when one follows an operator that leaves
a single value, and when rows are to be skipped after a number of rows has
been taken, since the target skips before it takes.
-/

namespace ObjectQuery

/-- Why a model cannot be lowered. -/
inductive LoweringError where
  /-- No handler is registered for the method. -/
  | unsupportedMethod (method : MethodSignature)
  | malformed (error : ModelError)
  /-- A handler was given another number of operands than it takes. -/
  | operandCount (method : MethodSignature) (expected actual : Nat)
  | afterReduction (operator : ResultOperator)
  | skipAfterTake (operator : ResultOperator)
  /-- Subqueries nest deeper than allowed. -/
  | tooDeep (limit : Nat)

/-- The message of an error. -/
def LoweringError.message : LoweringError → String
  | .unsupportedMethod method => "No HQL translation registered for method " ++ method.text
  | .malformed error => error.message
  | .operandCount method expected actual =>
    "Method " ++ method.text ++ " expects " ++ toString expected ++ " operand(s), got " ++
      toString actual
  | .afterReduction operator =>
    "Unsupported result operator sequence: " ++ operator.text ++
      " after a scalar result operator"
  | .skipAfterTake operator =>
    "Unsupported result operator sequence: " ++ operator.text ++ " after Take()"
  | .tooDeep limit =>
    "Subquery nesting exceeds the configured limit of " ++ toString limit

end ObjectQuery
