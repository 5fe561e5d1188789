import ObjectQuery.Hql.Basic
import ObjectQuery.Expr.Encoding

/-!
# Trees as JSON

A node is a variant named for its kind. A query is an object that is written
with all its members and read with any of them absent or null but the
source. Nodes with two positional operands are written as arrays.
-/

namespace ObjectQuery.Hql

/-! ## Writing -/

mutual

/-- A node as JSON. -/
def Node.toJson : Node → Json
  | .constant value => .object [("Constant", value.toJson)]
  | .parameter name => .object [("Parameter", .string name)]
  | .entity name => .object [("Entity", .string name)]
  | .ident name => .object [("Ident", .string name)]
  | .dot target property => .object [("Dot", .array [target.toJson, .string property])]
  | .binary operator left right =>
    .object [("Binary", .object [
      ("operator", operator.toJson), ("left", left.toJson), ("right", right.toJson)])]
  | .not operand => .object [("Not", operand.toJson)]
  | .negate operand => .object [("Negate", operand.toJson)]
  | .cast operand type =>
    .object [("Cast", .object [("expr", operand.toJson), ("ty", type.toJson)])]
  | .choice whens otherwise =>
    .object [("Case", .object [
      ("whens", .array (whensToJson whens)), ("else_expr", optionToJson otherwise)])]
  | .coalesce left right => .object [("Coalesce", .array [left.toJson, right.toJson])]
  | .isNull operand => .object [("IsNull", operand.toJson)]
  | .isNotNull operand => .object [("IsNotNull", operand.toJson)]
  | .function name arguments =>
    .object [("Function", .object [
      ("name", .string name), ("args", .array (listToJson arguments))])]
  | .like operand pattern escape =>
    .object [("Like", .object [
      ("expr", operand.toJson), ("pattern", pattern.toJson),
      ("escape", match escape with
        | none => .null
        | some c => .string (String.singleton c))])]
  | .among item collection =>
    .object [("In", .object [("item", item.toJson), ("collection", collection.toJson)])]
  | .nonempty query => .object [("Exists", query.toJson)]
  | .subquery query => .object [("SubQuery", query.toJson)]

/-- Several nodes as JSON. -/
def listToJson : List Node → List Json
  | [] => []
  | node :: rest => node.toJson :: listToJson rest

/-- A node that may be absent as JSON. -/
def optionToJson : Option Node → Json
  | none => .null
  | some node => node.toJson

/-- The conditions of a choice and what stands beside them as JSON. -/
def whensToJson : List (Node × Node) → List Json
  | [] => []
  | (condition, value) :: rest =>
    .array [condition.toJson, value.toJson] :: whensToJson rest

/-- The joins of a query as JSON. -/
def joinsToJson : List Join → List Json
  | [] => []
  | ⟨source, name, on⟩ :: rest =>
    .object [("source", source.toJson), ("alias", .string name), ("on", on.toJson)] ::
      joinsToJson rest

/-- The keys of a query as JSON. -/
def keysToJson : List OrderKey → List Json
  | [] => []
  | ⟨key, direction⟩ :: rest =>
    .object [("expr", key.toJson), ("direction", direction.toJson)] :: keysToJson rest

/-- An aggregate, or none, as JSON. -/
def aggregateToJson : Option Aggregate → Json
  | none => .null
  | some .count => .string "Count"
  | some .sum => .string "Sum"
  | some .min => .string "Min"
  | some .max => .string "Max"
  | some .average => .string "Avg"
  | some .any => .string "Exists"
  | some (.all predicate) => .object [("All", predicate.toJson)]
  | some (.contains item) => .object [("Contains", item.toJson)]
  | some .first => .string "First"
  | some .single => .string "Single"

/-- A query as JSON. -/
def Query.toJson : Query → Json
  | ⟨source, name, joins, filter, having, order, select, distinct, skip, take, aggregate⟩ =>
    .object [
      ("from", .object [("source", source.toJson), ("alias", .string name)]),
      ("joins", .array (joinsToJson joins)),
      ("where_clause", optionToJson filter),
      ("having", optionToJson having),
      ("order_by", .array (keysToJson order)),
      ("select", optionToJson select),
      ("distinct", .bool distinct),
      ("skip", optionToJson skip),
      ("take", optionToJson take),
      ("aggregate", aggregateToJson aggregate)]

end

/-! ## Reading -/

/-- Reads a text of one character, or null for none. -/
def escapeOfJson? : Json → Option (Option Char)
  | .null => some none
  | .string s =>
    match s.toList with
    | [c] => some (some c)
    | _ => none
  | _ => none

/-- A present member that is not null. -/
def present? {whole : Json} : Option whole.Part → Option whole.Part
  | some part => if part.1.isNull then none else some part
  | none => none

mutual

/-- Reads a node. -/
def Node.ofJson? (j : Json) : Option Node := do
  match ← j.variant? with
  | ("Constant", some ⟨content, _⟩) => return .constant (← Literal.ofJson? content)
  | ("Parameter", some ⟨content, _⟩) => return .parameter (← content.string?)
  | ("Entity", some ⟨content, _⟩) => return .entity (← content.string?)
  | ("Ident", some ⟨content, _⟩) => return .ident (← content.string?)
  | ("Dot", some ⟨content, _⟩) =>
    match ← content.items? with
    | [⟨target, _⟩, ⟨property, _⟩] => return .dot (← Node.ofJson? target) (← property.string?)
    | _ => none
  | ("Binary", some ⟨content, _⟩) =>
    match ← content.fields? ["operator", "left", "right"] with
    | [some ⟨operator, _⟩, some ⟨left, _⟩, some ⟨right, _⟩] =>
      return .binary (← BinaryOperator.ofJson? operator) (← Node.ofJson? left)
        (← Node.ofJson? right)
    | _ => none
  | ("Not", some ⟨content, _⟩) => return .not (← Node.ofJson? content)
  | ("Negate", some ⟨content, _⟩) => return .negate (← Node.ofJson? content)
  | ("Cast", some ⟨content, _⟩) =>
    match ← content.fields? ["expr", "ty"] with
    | [some ⟨operand, _⟩, some ⟨type, _⟩] =>
      return .cast (← Node.ofJson? operand) (← StaticType.ofJson? type)
    | _ => none
  | ("Case", some ⟨content, _⟩) =>
    match ← content.fields? ["whens", "else_expr"] with
    | [some ⟨whens, _⟩, otherwise] =>
      let whens ← (← whens.items?).mapM fun ⟨whenThen, _⟩ => whenOfJson? whenThen
      let otherwise ←
        match present? otherwise with
        | none => some none
        | some ⟨otherwise, _⟩ => (Node.ofJson? otherwise).map some
      return .choice whens otherwise
    | _ => none
  | ("Coalesce", some ⟨content, _⟩) =>
    match ← content.items? with
    | [⟨left, _⟩, ⟨right, _⟩] => return .coalesce (← Node.ofJson? left) (← Node.ofJson? right)
    | _ => none
  | ("IsNull", some ⟨content, _⟩) => return .isNull (← Node.ofJson? content)
  | ("IsNotNull", some ⟨content, _⟩) => return .isNotNull (← Node.ofJson? content)
  | ("Function", some ⟨content, _⟩) =>
    match ← content.fields? ["name", "args"] with
    | [some ⟨name, _⟩, some ⟨arguments, _⟩] =>
      let arguments ← (← arguments.items?).mapM fun ⟨argument, _⟩ => Node.ofJson? argument
      return .function (← name.string?) arguments
    | _ => none
  | ("Like", some ⟨content, _⟩) =>
    match ← content.fields? ["expr", "pattern", "escape"] with
    | [some ⟨operand, _⟩, some ⟨pattern, _⟩, escape] =>
      let escape ←
        match escape with
        | none => some none
        | some ⟨escape, _⟩ => escapeOfJson? escape
      return .like (← Node.ofJson? operand) (← Node.ofJson? pattern) escape
    | _ => none
  | ("In", some ⟨content, _⟩) =>
    match ← content.fields? ["item", "collection"] with
    | [some ⟨item, _⟩, some ⟨collection, _⟩] =>
      return .among (← Node.ofJson? item) (← Node.ofJson? collection)
    | _ => none
  | ("Exists", some ⟨content, _⟩) => return .nonempty (← Query.ofJson? content)
  | ("SubQuery", some ⟨content, _⟩) => return .subquery (← Query.ofJson? content)
  | _ => none
termination_by sizeOf j

/-- Reads a condition and what stands beside it. -/
def whenOfJson? (j : Json) : Option (Node × Node) := do
  match ← j.items? with
  | [⟨condition, _⟩, ⟨value, _⟩] => return (← Node.ofJson? condition, ← Node.ofJson? value)
  | _ => none
termination_by sizeOf j

/-- Reads a join. -/
def Join.ofJson? (j : Json) : Option Join := do
  match ← j.fields? ["source", "alias", "on"] with
  | [some ⟨source, _⟩, some ⟨name, _⟩, some ⟨on, _⟩] =>
    return ⟨← Node.ofJson? source, ← name.string?, ← Node.ofJson? on⟩
  | _ => none
termination_by sizeOf j

/-- Reads a key. -/
def OrderKey.ofJson? (j : Json) : Option OrderKey := do
  match ← j.fields? ["expr", "direction"] with
  | [some ⟨key, _⟩, some ⟨direction, _⟩] =>
    return ⟨← Node.ofJson? key, ← Direction.ofJson? direction⟩
  | _ => none
termination_by sizeOf j

/-- Reads an aggregate. -/
def Aggregate.ofJson? (j : Json) : Option Aggregate := do
  match ← j.variant? with
  | ("All", some ⟨predicate, _⟩) => return .all (← Node.ofJson? predicate)
  | ("Contains", some ⟨item, _⟩) => return .contains (← Node.ofJson? item)
  | ("Count", none) => some .count
  | ("Sum", none) => some .sum
  | ("Min", none) => some .min
  | ("Max", none) => some .max
  | ("Avg", none) => some .average
  | ("Exists", none) => some .any
  | ("First", none) => some .first
  | ("Single", none) => some .single
  | _ => none
termination_by sizeOf j

/-- Reads a query. -/
def Query.ofJson? (j : Json) : Option Query := do
  match ← j.fields? ["from", "joins", "where_clause", "having", "order_by", "select",
      "distinct", "skip", "take", "aggregate"] with
  | [some ⟨origin, _⟩, joins, filter, having, order, select, distinct, skip, take,
      aggregate] =>
    match ← origin.fields? ["source", "alias"] with
    | [some ⟨source, _⟩, some ⟨name, _⟩] =>
      let joins ←
        match present? joins with
        | none => some []
        | some ⟨joins, _⟩ => (← joins.items?).mapM fun ⟨join, _⟩ => Join.ofJson? join
      let filter ←
        match present? filter with
        | none => some none
        | some ⟨filter, _⟩ => (Node.ofJson? filter).map some
      let having ←
        match present? having with
        | none => some none
        | some ⟨having, _⟩ => (Node.ofJson? having).map some
      let order ←
        match present? order with
        | none => some []
        | some ⟨order, _⟩ => (← order.items?).mapM fun ⟨key, _⟩ => OrderKey.ofJson? key
      let select ←
        match present? select with
        | none => some none
        | some ⟨select, _⟩ => (Node.ofJson? select).map some
      let distinct ←
        match present? distinct with
        | none => some false
        | some ⟨distinct, _⟩ => distinct.bool?
      let skip ←
        match present? skip with
        | none => some none
        | some ⟨skip, _⟩ => (Node.ofJson? skip).map some
      let take ←
        match present? take with
        | none => some none
        | some ⟨take, _⟩ => (Node.ofJson? take).map some
      let aggregate ←
        match present? aggregate with
        | none => some none
        | some ⟨aggregate, _⟩ => (Aggregate.ofJson? aggregate).map some
      return ⟨← Node.ofJson? source, ← name.string?, joins, filter, having, order, select,
        distinct, skip, take, aggregate⟩
    | _ => none
  | _ => none
termination_by sizeOf j

end

end ObjectQuery.Hql
