import ObjectQuery.Value.Compare
import ObjectQuery.Hql.Render

/-!
# What can go wrong when a query runs

Each cause of failure with what its message needs to say. Operations that
are not defined for every kind of value name themselves and the kind they
were given.
-/

namespace ObjectQuery

/-- An operation that is not defined for every kind of value. -/
inductive Operation where
  /-- Reading items from a source. -/
  | source
  /-- Skipping or taking a number of rows. -/
  | paging
  | property (name : String)
  | not
  | negation
  | and
  | or
  | comparison
  | arithmetic
  | like
  | function (name : String)
  deriving DecidableEq, Inhabited

/-- The name of an operation in messages. -/
def Operation.text : Operation → String
  | .source => "query source"
  | .paging => "skip/take"
  | .property name => "property access ." ++ name
  | .not => "not"
  | .negation => "negation"
  | .and => "and"
  | .or => "or"
  | .comparison => "comparison"
  | .arithmetic => "arithmetic"
  | .like => "like"
  | .function name => name ++ "()"

/-- An integer operation whose result does not fit into a word. -/
inductive Overflow where
  | negation
  | abs (operand : Int64)
  | arithmetic (operator : BinaryOperator) (left right : Int64)
  deriving DecidableEq

/-- The text of an operation that overflows. -/
def Overflow.text : Overflow → String
  | .negation => "negation"
  | .abs operand => "abs(" ++ Word64.text operand ++ ")"
  | .arithmetic operator left right =>
    Word64.text left ++ " " ++ operator.keyword ++ " " ++ Word64.text right

/-- Why a query could not be run to its end. -/
inductive EvalError where
  | unknownEntity (name : String)
  | unboundName (name : String)
  | unboundParameter (name : String)
  | typeMismatch (operation : Operation) (found : Kind)
  | unknownFunction (name : String)
  | overflow (operation : Overflow)
  | emptySequence
  | moreThanOneElement
  deriving DecidableEq

/-- The message of an error. -/
def EvalError.message : EvalError → String
  | .unknownEntity name => "Unknown entity '" ++ name ++ "' in data set"
  | .unboundName name => "Alias '" ++ name ++ "' is not bound in this scope"
  | .unboundParameter name => "No value supplied for parameter :" ++ name
  | .typeMismatch operation found => operation.text ++ " is not defined for " ++ found.text
  | .unknownFunction name => "Unknown function '" ++ name ++ "'"
  | .overflow operation => "Integer overflow in " ++ operation.text
  | .emptySequence => "Sequence contains no elements"
  | .moreThanOneElement => "Sequence contains more than one element"

/-- An outcome of running a query or a part of it. -/
abbrev Outcome (α : Type) : Type := Except EvalError α

/-- The error of an operation that is given a value it is not defined for. -/
def mismatch {α : Type} (operation : Operation) (v : Value) : Outcome α :=
  .error (.typeMismatch operation v.kind)

/-- The result of an integer operation, or its overflow. -/
def orOverflow (operation : Overflow) : Option Int64 → Outcome Value
  | some n => .ok (.integer n)
  | none => .error (.overflow operation)

end ObjectQuery
