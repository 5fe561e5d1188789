import ObjectQuery.StaticType
import ObjectQuery.Word64
import ObjectQuery.Decimal.Layout

/-!
# Literals

The constants of a query: null, the scalars, and the queryable of an
entity, which stands for all its rows.
-/

namespace ObjectQuery

/-- A constant of a query. -/
inductive Literal where
  | null
  | boolean (b : Bool)
  | integer (n : Int64)
  | float (x : Float)
  | string (s : String)
  /-- All rows of the entity of that name. -/
  | queryable (entity : String)
  deriving Inhabited

namespace Literal

/-- The static type of a constant. -/
def type : Literal → StaticType
  | .null => .object
  | .boolean _ => .boolean
  | .integer _ => .integer
  | .float _ => .decimal
  | .string _ => .string
  | .queryable entity => .collection (.entity entity)

/-- Whether a constant is null. -/
def isNull : Literal → Bool
  | .null => true
  | _ => false

/-! ## Text -/

/-- The text of a boolean. -/
def booleanText (b : Bool) : String :=
  if b then "true" else "false"

/-- The text of a constant in the text of an expression. -/
def text : Literal → String
  | .null => "null"
  | .boolean b => booleanText b
  | .integer n => Word64.text n
  | .float x => Decimal.Layout.plain.text x
  | .string s => "\"" ++ s ++ "\""
  | .queryable entity => "Query<" ++ entity ++ ">"

/-! ## JSON -/

/-- A constant as JSON. A float that is no finite number is written as null,
which is not read back. -/
def toJson : Literal → Json
  | .null => .string "Null"
  | .boolean b => .object [("Boolean", .bool b)]
  | .integer n => .object [("Integer", .integer n.toInt)]
  | .float x => .object [("Float", if x.isFinite then .float x else .null)]
  | .string s => .object [("String", .string s)]
  | .queryable entity => .object [("Queryable", .string entity)]

/-- Reads a word of sixty-four bits. -/
def word64? : Json → Option Int64
  | .integer n => Word64.exactly? n
  | _ => none

/-- Reads a constant. -/
def ofJson? (j : Json) : Option Literal := do
  match ← j.variant? with
  | ("Null", content) => if Json.isEmptyContent content then some .null else none
  | ("Boolean", some ⟨b, _⟩) => return .boolean (← b.bool?)
  | ("Integer", some ⟨n, _⟩) => return .integer (← word64? n)
  | ("Float", some ⟨x, _⟩) => return .float (← x.number?)
  | ("String", some ⟨s, _⟩) => return .string (← s.string?)
  | ("Queryable", some ⟨entity, _⟩) => return .queryable (← entity.string?)
  | _ => none

end Literal

end ObjectQuery
