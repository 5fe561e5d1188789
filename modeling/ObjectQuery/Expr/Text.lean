import ObjectQuery.Expr.Basic

/-!
# The text of expressions and models

A readable rendering in the notation of the client that wrote the query.
It shows every part of a tree, gaps included, and is what messages and
traces quote. It is not meant to be read back: strings are quoted without
escapes.
-/

namespace ObjectQuery

/-- The sign of an operator. -/
def BinaryOperator.symbol : BinaryOperator → String
  | .add => "+"
  | .subtract => "-"
  | .multiply => "*"
  | .divide => "/"
  | .equal => "=="
  | .notEqual => "!="
  | .lessThan => "<"
  | .lessThanOrEqual => "<="
  | .greaterThan => ">"
  | .greaterThanOrEqual => ">="
  | .and => "&&"
  | .or => "||"

/-- What stands for an absent part. -/
def missingText : String := "<missing>"

mutual

/-- The text of an expression. -/
def Expr.text : Expr → String
  | .constant value => value.text
  | .parameter name _ => "$" ++ name
  | .unary .not operand _ => "!(" ++ operand.text ++ ")"
  | .unary .negate operand _ => "-(" ++ operand.text ++ ")"
  | .unary .convert operand type => "((" ++ type.text ++ ")" ++ operand.text ++ ")"
  | .binary operator left right =>
    "(" ++ left.text ++ " " ++ operator.symbol ++ " " ++ right.text ++ ")"
  | .member target name _ => target.text ++ "." ++ name
  | .call method (some target) arguments _ =>
    target.text ++ "." ++ method.name ++ "(" ++ ", ".intercalate (textsOf arguments) ++ ")"
  | .call method none arguments _ =>
    method.declaringType ++ "." ++ method.name ++ "(" ++
      ", ".intercalate (textsOf arguments) ++ ")"
  | .conditional test whenTrue whenFalse =>
    "(" ++ test.text ++ " ? " ++ optionText whenTrue ++ " : " ++ optionText whenFalse ++ ")"
  | .coalesce left right => "(" ++ optionText left ++ " ?? " ++ optionText right ++ ")"
  | .source name _ => "[" ++ name ++ "]"
  | .subquery model => "\x7b" ++ model.text ++ "\x7d"

/-- The text of an expression that may be missing. -/
def optionText : Option Expr → String
  | none => missingText
  | some e => e.text

/-- The texts of several expressions. -/
def textsOf : List Expr → List String
  | [] => []
  | e :: rest => e.text :: textsOf rest

/-- The text of a clause that may be absent, after its keyword. -/
def clauseText (keyword : String) : Option Expr → String
  | none => ""
  | some e => keyword ++ e.text

/-- The text of the joins of a model. -/
def joinsText : List JoinClause → String
  | [] => ""
  | ⟨item, _, sequence, outerKey, innerKey⟩ :: rest =>
    " join " ++ item ++ " in " ++ sequence.text ++ " on " ++ outerKey.text ++ " equals " ++
      innerKey.text ++ joinsText rest

/-- The text of the orderings of a model. -/
def orderingsText : List OrderClause → String
  | [] => ""
  | ⟨key, direction⟩ :: rest =>
    " orderby " ++ key.text ++ " " ++ direction.text ++ orderingsText rest

/-- The text of a result operator. -/
def ResultOperator.text : ResultOperator → String
  | .count => "Count()"
  | .longCount => "LongCount()"
  | .any => "Any()"
  | .all predicate => "All(" ++ predicate.text ++ ")"
  | .first => "First()"
  | .single => "Single()"
  | .take count => "Take(" ++ count.text ++ ")"
  | .skip count => "Skip(" ++ count.text ++ ")"
  | .distinct => "Distinct()"
  | .contains item => "Contains(" ++ item.text ++ ")"
  | .sum => "Sum()"
  | .min => "Min()"
  | .max => "Max()"
  | .average => "Average()"

/-- The text of the result operators of a model. -/
def operatorsText : List ResultOperator → String
  | [] => ""
  | operator :: rest => " => " ++ operator.text ++ operatorsText rest

/-- The text of a model. -/
def QueryModel.text : QueryModel → String
  | ⟨item, _, source, joins, filter, having, orderings, selector, operators⟩ =>
    "from " ++ item ++ " in " ++ optionText source ++ joinsText joins ++
      clauseText " where " filter ++ clauseText " having " having ++ orderingsText orderings ++
      (match selector with
        | some e => " select " ++ e.text
        | none => " select [" ++ item ++ "]") ++
      operatorsText operators

end

end ObjectQuery
