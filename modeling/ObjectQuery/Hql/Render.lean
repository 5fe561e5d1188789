import ObjectQuery.Hql.Basic

/-!
# The text of trees

Operations with two operands are parenthesised, and so are the operands of
negations and every subquery. A quote inside a string is written twice.
Aggregates for which the language has no function of its own are written
under the names that the engine gives them; of a query that tests every row
the projection is not written at all.
-/

namespace ObjectQuery

/-- The sign or word of an operator in a query text. -/
def BinaryOperator.keyword : BinaryOperator → String
  | .add => "+"
  | .subtract => "-"
  | .multiply => "*"
  | .divide => "/"
  | .equal => "="
  | .notEqual => "<>"
  | .lessThan => "<"
  | .lessThanOrEqual => "<="
  | .greaterThan => ">"
  | .greaterThanOrEqual => ">="
  | .and => "and"
  | .or => "or"

namespace Hql

/-- A string constant in quotes. -/
def quote (s : String) : String :=
  String.ofList ('\'' :: (s.toList.flatMap (fun c => if c = '\'' then ['\'', '\''] else [c]) ++
    ['\'']))

/-- The text of a constant. -/
def literalText : Literal → String
  | .null => "null"
  | .boolean b => Literal.booleanText b
  | .integer n => Word64.text n
  | .float x => Decimal.Layout.plain.text x
  | .string s => quote s
  | .queryable entity => entity

/-- The escape clause of a pattern. -/
def escapeText : Option Char → String
  | none => ""
  | some c => " escape " ++ quote (String.singleton c)

mutual

/-- The text of a node. -/
def Node.render : Node → String
  | .constant value => literalText value
  | .parameter name => ":" ++ name
  | .entity name => name
  | .ident name => name
  | .dot target property => target.render ++ "." ++ property
  | .binary operator left right =>
    "(" ++ left.render ++ " " ++ operator.keyword ++ " " ++ right.render ++ ")"
  | .not operand => "not (" ++ operand.render ++ ")"
  | .negate operand => "-(" ++ operand.render ++ ")"
  | .cast operand type => "cast(" ++ operand.render ++ " as " ++ type.text ++ ")"
  | .choice whens otherwise =>
    "case" ++ renderWhens whens ++ renderClause " else " otherwise ++ " end"
  | .coalesce left right => "coalesce(" ++ left.render ++ ", " ++ right.render ++ ")"
  | .isNull operand => operand.render ++ " is null"
  | .isNotNull operand => operand.render ++ " is not null"
  | .function name arguments => name ++ "(" ++ ", ".intercalate (renderAll arguments) ++ ")"
  | .like operand pattern escape =>
    operand.render ++ " like " ++ pattern.render ++ escapeText escape
  | .among item collection => item.render ++ " in elements(" ++ collection.render ++ ")"
  | .nonempty query => "exists (" ++ query.render ++ ")"
  | .subquery query => "(" ++ query.render ++ ")"

/-- The texts of several nodes. -/
def renderAll : List Node → List String
  | [] => []
  | node :: rest => node.render :: renderAll rest

/-- The text of the conditions of a choice and what stands beside them. -/
def renderWhens : List (Node × Node) → String
  | [] => ""
  | (condition, value) :: rest =>
    " when " ++ condition.render ++ " then " ++ value.render ++ renderWhens rest

/-- The text of a part that may be absent, after its keyword. -/
def renderClause (keyword : String) : Option Node → String
  | none => ""
  | some node => keyword ++ node.render

/-- The text of the joins of a query. -/
def renderJoins : List Join → String
  | [] => ""
  | ⟨source, name, on⟩ :: rest =>
    " join " ++ source.render ++ " " ++ name ++ " on " ++ on.render ++ renderJoins rest

/-- The texts of the keys of a query. -/
def renderKeys : List OrderKey → List String
  | [] => []
  | ⟨key, direction⟩ :: rest => (key.render ++ " " ++ direction.text) :: renderKeys rest

/-- What a query selects: the projection inside of the aggregate. -/
def renderSelection (projected : String) : Option Aggregate → String
  | none => projected
  | some .count => "count(" ++ projected ++ ")"
  | some .sum => "sum(" ++ projected ++ ")"
  | some .min => "min(" ++ projected ++ ")"
  | some .max => "max(" ++ projected ++ ")"
  | some .average => "avg(" ++ projected ++ ")"
  | some .any => "any(" ++ projected ++ ")"
  | some (.all predicate) => "every(" ++ predicate.render ++ ")"
  | some (.contains item) => "contains(" ++ projected ++ ", " ++ item.render ++ ")"
  | some .first => "first(" ++ projected ++ ")"
  | some .single => "single(" ++ projected ++ ")"

/-- The text of a query. -/
def Query.render : Query → String
  | ⟨source, name, joins, filter, having, order, select, distinct, skip, take, aggregate⟩ =>
    let selected :=
      match select with
      | some node => node.render
      | none => name
    let projected := if distinct then "distinct " ++ selected else selected
    let keys := renderKeys order
    "select " ++ renderSelection projected aggregate ++ " from " ++ source.render ++ " " ++
      name ++ renderJoins joins ++ renderClause " where " filter ++
      renderClause " having " having ++
      (if keys.isEmpty then "" else " order by " ++ ", ".intercalate keys) ++
      renderClause " skip " skip ++ renderClause " take " take

end

end Hql

end ObjectQuery
