import ObjectQuery.Expr.Basic

/-!
# Expressions and models as JSON

An expression is a variant named for its kind, a model and each of its
clauses a record. What is written always has every member; an absent part
is null and an absent list empty. What is read may leave out the members of
a model other than its main source, and the parts of an expression that may
be absent.

The two directions are meant to be inverse on everything that is written.
Reading recurses from a value to its parts, so it ends because parts are
smaller.
-/

namespace ObjectQuery

/-! ## Writing -/

/-- A unary operator as JSON. -/
def UnaryOperator.toJson : UnaryOperator → Json
  | .not => .string "Not"
  | .negate => .string "Negate"
  | .convert => .string "Convert"

/-- The name of a binary operator in JSON. -/
def BinaryOperator.caseName : BinaryOperator → String
  | .add => "Add"
  | .subtract => "Subtract"
  | .multiply => "Multiply"
  | .divide => "Divide"
  | .equal => "Equal"
  | .notEqual => "NotEqual"
  | .lessThan => "LessThan"
  | .lessThanOrEqual => "LessThanOrEqual"
  | .greaterThan => "GreaterThan"
  | .greaterThanOrEqual => "GreaterThanOrEqual"
  | .and => "And"
  | .or => "Or"

/-- A binary operator as JSON. -/
def BinaryOperator.toJson (operator : BinaryOperator) : Json :=
  .string operator.caseName

/-- A direction as JSON. -/
def Direction.toJson : Direction → Json
  | .ascending => .string "Asc"
  | .descending => .string "Desc"

/-- A signature as JSON. -/
def MethodSignature.toJson (s : MethodSignature) : Json :=
  .object [
    ("declaring_type", .string s.declaringType),
    ("name", .string s.name),
    ("parameter_types", .array (s.parameterTypes.map StaticType.toJson))]

mutual

/-- An expression as JSON. -/
def Expr.toJson : Expr → Json
  | .constant value => .object [("Constant", value.toJson)]
  | .parameter name type =>
    .object [("Parameter", .object [("name", .string name), ("ty", type.toJson)])]
  | .unary operator operand type =>
    .object [("Unary", .object [
      ("operator", operator.toJson), ("operand", operand.toJson), ("ty", type.toJson)])]
  | .binary operator left right =>
    .object [("Binary", .object [
      ("operator", operator.toJson), ("left", left.toJson), ("right", right.toJson)])]
  | .member target name type =>
    .object [("MemberAccess", .object [
      ("target", target.toJson), ("member", .string name), ("ty", type.toJson)])]
  | .call method target arguments type =>
    .object [("MethodCall", .object [
      ("method", method.toJson), ("target", optionToJson target),
      ("args", .array (listToJson arguments)), ("ty", type.toJson)])]
  | .conditional test whenTrue whenFalse =>
    .object [("Conditional", .object [
      ("test", test.toJson), ("if_true", optionToJson whenTrue),
      ("if_false", optionToJson whenFalse)])]
  | .coalesce left right =>
    .object [("Coalesce", .object [
      ("left", optionToJson left), ("right", optionToJson right)])]
  | .source name type =>
    .object [("QuerySourceRef", .object [("source", .string name), ("ty", type.toJson)])]
  | .subquery model => .object [("SubQuery", .object [("model", model.toJson)])]

/-- An expression that may be absent as JSON. -/
def optionToJson : Option Expr → Json
  | none => .null
  | some e => e.toJson

/-- Several expressions as JSON. -/
def listToJson : List Expr → List Json
  | [] => []
  | e :: rest => e.toJson :: listToJson rest

/-- A clause that holds one expression under the given name, or is absent,
as JSON. -/
def clauseToJson (name : String) : Option Expr → Json
  | none => .null
  | some e => .object [(name, e.toJson)]

/-- The joins of a model as JSON. -/
def joinsToJson : List JoinClause → List Json
  | [] => []
  | ⟨item, itemType, sequence, outerKey, innerKey⟩ :: rest =>
    .object [
      ("item_name", .string item), ("item_type", itemType.toJson),
      ("inner_sequence", sequence.toJson), ("outer_key", outerKey.toJson),
      ("inner_key", innerKey.toJson)] :: joinsToJson rest

/-- The orderings of a model as JSON. -/
def orderingsToJson : List OrderClause → List Json
  | [] => []
  | ⟨key, direction⟩ :: rest =>
    .object [("expression", key.toJson), ("direction", direction.toJson)] ::
      orderingsToJson rest

/-- The result operators of a model as JSON. -/
def operatorsToJson : List ResultOperator → List Json
  | [] => []
  | .count :: rest => .string "Count" :: operatorsToJson rest
  | .longCount :: rest => .string "LongCount" :: operatorsToJson rest
  | .any :: rest => .string "Any" :: operatorsToJson rest
  | .all predicate :: rest => .object [("All", predicate.toJson)] :: operatorsToJson rest
  | .first :: rest => .string "First" :: operatorsToJson rest
  | .single :: rest => .string "Single" :: operatorsToJson rest
  | .take count :: rest => .object [("Take", count.toJson)] :: operatorsToJson rest
  | .skip count :: rest => .object [("Skip", count.toJson)] :: operatorsToJson rest
  | .distinct :: rest => .string "Distinct" :: operatorsToJson rest
  | .contains item :: rest => .object [("Contains", item.toJson)] :: operatorsToJson rest
  | .sum :: rest => .string "Sum" :: operatorsToJson rest
  | .min :: rest => .string "Min" :: operatorsToJson rest
  | .max :: rest => .string "Max" :: operatorsToJson rest
  | .average :: rest => .string "Average" :: operatorsToJson rest

/-- A model as JSON. -/
def QueryModel.toJson : QueryModel → Json
  | ⟨item, itemType, source, joins, filter, having, orderings, selector, operators⟩ =>
    .object [
      ("main_from", .object [
        ("item_name", .string item), ("item_type", itemType.toJson),
        ("from_expression", optionToJson source)]),
      ("joins", .array (joinsToJson joins)),
      ("where_clause", clauseToJson "predicate" filter),
      ("having", clauseToJson "predicate" having),
      ("orderings", .array (orderingsToJson orderings)),
      ("select", clauseToJson "selector" selector),
      ("result_operators", .array (operatorsToJson operators))]

end

/-! ## Reading -/

/-- Reads the name of a case without content. -/
def caseName? (j : Json) : Option String := do
  let (name, content) ← j.variant?
  if Json.isEmptyContent content then some name else none

/-- Reads a unary operator. -/
def UnaryOperator.ofJson? (j : Json) : Option UnaryOperator := do
  match ← caseName? j with
  | "Not" => some .not
  | "Negate" => some .negate
  | "Convert" => some .convert
  | _ => none

/-- Reads a binary operator. -/
def BinaryOperator.ofJson? (j : Json) : Option BinaryOperator := do
  match ← caseName? j with
  | "Add" => some .add
  | "Subtract" => some .subtract
  | "Multiply" => some .multiply
  | "Divide" => some .divide
  | "Equal" => some .equal
  | "NotEqual" => some .notEqual
  | "LessThan" => some .lessThan
  | "LessThanOrEqual" => some .lessThanOrEqual
  | "GreaterThan" => some .greaterThan
  | "GreaterThanOrEqual" => some .greaterThanOrEqual
  | "And" => some .and
  | "Or" => some .or
  | _ => none

/-- Reads a direction. -/
def Direction.ofJson? (j : Json) : Option Direction := do
  match ← caseName? j with
  | "Asc" => some .ascending
  | "Desc" => some .descending
  | _ => none

/-- Reads a signature. -/
def MethodSignature.ofJson? (j : Json) : Option MethodSignature := do
  match ← j.record? ["declaring_type", "name", "parameter_types"] [] with
  | [some ⟨declaringType, _⟩, some ⟨name, _⟩, some ⟨parameterTypes, _⟩] =>
    return ⟨← declaringType.string?, ← name.string?,
      ← parameterTypes.list? StaticType.ofJson?⟩
  | _ => none

mutual

/-- Reads an expression. -/
def Expr.ofJson? (j : Json) : Option Expr := do
  match ← j.variant? with
  | ("Constant", some ⟨content, _⟩) => return .constant (← Literal.ofJson? content)
  | ("Parameter", some ⟨content, _⟩) =>
    match ← content.record? ["name", "ty"] [] with
    | [some ⟨name, _⟩, some ⟨type, _⟩] =>
      return .parameter (← name.string?) (← StaticType.ofJson? type)
    | _ => none
  | ("Unary", some ⟨content, _⟩) =>
    match ← content.record? ["operator", "operand", "ty"] [] with
    | [some ⟨operator, _⟩, some ⟨operand, _⟩, some ⟨type, _⟩] =>
      return .unary (← UnaryOperator.ofJson? operator) (← Expr.ofJson? operand)
        (← StaticType.ofJson? type)
    | _ => none
  | ("Binary", some ⟨content, _⟩) =>
    match ← content.record? ["operator", "left", "right"] [] with
    | [some ⟨operator, _⟩, some ⟨left, _⟩, some ⟨right, _⟩] =>
      return .binary (← BinaryOperator.ofJson? operator) (← Expr.ofJson? left)
        (← Expr.ofJson? right)
    | _ => none
  | ("MemberAccess", some ⟨content, _⟩) =>
    match ← content.record? ["target", "member", "ty"] [] with
    | [some ⟨target, _⟩, some ⟨name, _⟩, some ⟨type, _⟩] =>
      return .member (← Expr.ofJson? target) (← name.string?) (← StaticType.ofJson? type)
    | _ => none
  | ("MethodCall", some ⟨content, _⟩) =>
    match ← content.record? ["method", "target", "args", "ty"] [] with
    | [some ⟨method, _⟩, target, some ⟨arguments, _⟩, some ⟨type, _⟩] =>
      let target ← Json.orMissing none (fun ⟨e, _⟩ => optionOfJson? e) target
      let arguments ← (← arguments.items?).mapM fun ⟨argument, _⟩ => Expr.ofJson? argument
      return .call (← MethodSignature.ofJson? method) target arguments
        (← StaticType.ofJson? type)
    | _ => none
  | ("Conditional", some ⟨content, _⟩) =>
    match ← content.record? ["test", "if_true", "if_false"] [] with
    | [some ⟨test, _⟩, whenTrue, whenFalse] =>
      let whenTrue ← Json.orMissing none (fun ⟨e, _⟩ => optionOfJson? e) whenTrue
      let whenFalse ← Json.orMissing none (fun ⟨e, _⟩ => optionOfJson? e) whenFalse
      return .conditional (← Expr.ofJson? test) whenTrue whenFalse
    | _ => none
  | ("Coalesce", some ⟨content, _⟩) =>
    match ← content.record? ["left", "right"] [] with
    | [left, right] =>
      let left ← Json.orMissing none (fun ⟨e, _⟩ => optionOfJson? e) left
      let right ← Json.orMissing none (fun ⟨e, _⟩ => optionOfJson? e) right
      return .coalesce left right
    | _ => none
  | ("QuerySourceRef", some ⟨content, _⟩) =>
    match ← content.record? ["source", "ty"] [] with
    | [some ⟨name, _⟩, some ⟨type, _⟩] =>
      return .source (← name.string?) (← StaticType.ofJson? type)
    | _ => none
  | ("SubQuery", some ⟨content, _⟩) =>
    match ← content.record? ["model"] [] with
    | [some ⟨model, _⟩] => return .subquery (← QueryModel.ofJson? model)
    | _ => none
  | _ => none
termination_by (sizeOf j, 0)

/-- Reads an expression, or null for none. -/
def optionOfJson? (j : Json) : Option (Option Expr) :=
  if j.isNull then some none else (Expr.ofJson? j).map some
termination_by (sizeOf j, 1)

/-- Reads a clause that holds one expression under the given name, or null
for none. -/
def clauseOfJson? (name : String) (j : Json) : Option (Option Expr) := do
  if j.isNull then return none
  match ← j.record? [name] [] with
  | [some ⟨e, _⟩] => return some (← Expr.ofJson? e)
  | _ => none
termination_by (sizeOf j, 0)

/-- Reads a join. -/
def JoinClause.ofJson? (j : Json) : Option JoinClause := do
  match ← j.record? ["item_name", "item_type", "inner_sequence", "outer_key", "inner_key"] [] with
  | [some ⟨item, _⟩, some ⟨itemType, _⟩, some ⟨sequence, _⟩, some ⟨outerKey, _⟩,
      some ⟨innerKey, _⟩] =>
    return ⟨← item.string?, ← StaticType.ofJson? itemType, ← Expr.ofJson? sequence,
      ← Expr.ofJson? outerKey, ← Expr.ofJson? innerKey⟩
  | _ => none
termination_by (sizeOf j, 0)

/-- Reads an ordering. -/
def OrderClause.ofJson? (j : Json) : Option OrderClause := do
  match ← j.record? ["expression", "direction"] [] with
  | [some ⟨key, _⟩, some ⟨direction, _⟩] =>
    return ⟨← Expr.ofJson? key, ← Direction.ofJson? direction⟩
  | _ => none
termination_by (sizeOf j, 0)

/-- Reads a result operator. -/
def ResultOperator.ofJson? (j : Json) : Option ResultOperator := do
  match ← j.variant? with
  | ("All", some ⟨predicate, _⟩) => return .all (← Expr.ofJson? predicate)
  | ("Take", some ⟨count, _⟩) => return .take (← Expr.ofJson? count)
  | ("Skip", some ⟨count, _⟩) => return .skip (← Expr.ofJson? count)
  | ("Contains", some ⟨item, _⟩) => return .contains (← Expr.ofJson? item)
  | (name, content) =>
    if Json.isEmptyContent content then
      match name with
      | "Count" => some .count
      | "LongCount" => some .longCount
      | "Any" => some .any
      | "First" => some .first
      | "Single" => some .single
      | "Distinct" => some .distinct
      | "Sum" => some .sum
      | "Min" => some .min
      | "Max" => some .max
      | "Average" => some .average
      | _ => none
    else none
termination_by (sizeOf j, 0)

/-- Reads a model. -/
def QueryModel.ofJson? (j : Json) : Option QueryModel := do
  match ← j.record? ["main_from"]
      ["joins", "where_clause", "having", "orderings", "select", "result_operators"] with
  | [some ⟨mainFrom, _⟩, joins, filter, having, orderings, selector, operators] =>
    match ← mainFrom.record? ["item_name", "item_type", "from_expression"] [] with
    | [some ⟨item, _⟩, some ⟨itemType, _⟩, source] =>
      let source ← Json.orMissing none (fun ⟨e, _⟩ => optionOfJson? e) source
      let joins ← Json.orMissing [] (fun ⟨list, _⟩ => do
        (← list.items?).mapM fun ⟨join, _⟩ => JoinClause.ofJson? join) joins
      let filter ← Json.orMissing none (fun ⟨clause, _⟩ =>
        clauseOfJson? "predicate" clause) filter
      let having ← Json.orMissing none (fun ⟨clause, _⟩ =>
        clauseOfJson? "predicate" clause) having
      let orderings ← Json.orMissing [] (fun ⟨list, _⟩ => do
        (← list.items?).mapM fun ⟨ordering, _⟩ => OrderClause.ofJson? ordering) orderings
      let selector ← Json.orMissing none (fun ⟨clause, _⟩ =>
        clauseOfJson? "selector" clause) selector
      let operators ← Json.orMissing [] (fun ⟨list, _⟩ => do
        (← list.items?).mapM fun ⟨operator, _⟩ => ResultOperator.ofJson? operator) operators
      return ⟨← item.string?, ← StaticType.ofJson? itemType, source, joins, filter, having,
        orderings, selector, operators⟩
    | _ => none
  | _ => none
termination_by (sizeOf j, 0)

end

end ObjectQuery
