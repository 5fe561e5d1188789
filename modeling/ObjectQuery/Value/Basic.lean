import ObjectQuery.Json.Writer
import ObjectQuery.Literal

/-!
# Runtime values

What a query computes with: null, the scalars, the rows of a data set and
lists. A row keeps its members as JSON and turns one into a value only when
it is asked for; a list holds values.

Values and JSON correspond. Of the numbers, those that are whole in JSON
and fit into a word are integers and all others are decimals. A decimal
that is not finite has no counterpart in JSON and becomes null there.
-/

namespace ObjectQuery

/-- The members of a row, in order. -/
abbrev Record : Type := List (String × Json)

/-- A runtime value. -/
inductive Value where
  | null
  | boolean (b : Bool)
  | integer (n : Int64)
  | decimal (x : Float)
  | string (s : String)
  | row (record : Record)
  | list (items : List Value)
  deriving Inhabited

/-- The kinds of values. -/
inductive Kind where
  | null
  | boolean
  | integer
  | decimal
  | string
  | row
  | list
  deriving DecidableEq, Inhabited

/-- The name of a kind. -/
def Kind.text : Kind → String
  | .null => "null"
  | .boolean => "boolean"
  | .integer => "integer"
  | .decimal => "decimal"
  | .string => "string"
  | .row => "row"
  | .list => "list"

namespace Value

/-- The kind of a value. -/
def kind : Value → Kind
  | .null => .null
  | .boolean _ => .boolean
  | .integer _ => .integer
  | .decimal _ => .decimal
  | .string _ => .string
  | .row _ => .row
  | .list _ => .list

/-- Whether a value is null. -/
def isNull : Value → Bool
  | .null => true
  | _ => false

/-- Whether a value is the truth value true. -/
def isTrue : Value → Bool
  | .boolean true => true
  | _ => false

/-- A truth value that may be unknown; unknown is null. -/
def ofTruth : Option Bool → Value
  | some b => .boolean b
  | none => .null

/-- The value of a constant. A queryable counts by its name here; whoever
has a data set takes its rows instead. -/
def ofLiteral : Literal → Value
  | .null => .null
  | .boolean b => .boolean b
  | .integer n => .integer n
  | .float x => .decimal x
  | .string s => .string s
  | .queryable entity => .string entity

/-! ## JSON -/

mutual

/-- The value of a JSON value. -/
def ofJson : Json → Value
  | .null => .null
  | .bool b => .boolean b
  | .integer n =>
    match Word64.exactly? n with
    | some w => .integer w
    | none => .decimal (Float.ofInt n)
  | .float x => .decimal x
  | .string s => .string s
  | .array items => .list (ofJsonItems items)
  | .object members => .row members

/-- The values of several JSON values. -/
def ofJsonItems : List Json → List Value
  | [] => []
  | item :: rest => ofJson item :: ofJsonItems rest

end

mutual

/-- A value as JSON. -/
def toJson : Value → Json
  | .null => .null
  | .boolean b => .bool b
  | .integer n => .integer n.toInt
  | .decimal x => if x.isFinite then .float x else .null
  | .string s => .string s
  | .row record => .object record
  | .list items => .array (toJsonItems items)

/-- Several values as JSON. -/
def toJsonItems : List Value → List Json
  | [] => []
  | item :: rest => item.toJson :: toJsonItems rest

end

/-- The text of a value: its JSON in compact form. -/
def text (v : Value) : String :=
  v.toJson.compact

end Value

end ObjectQuery
