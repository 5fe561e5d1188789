import ObjectQuery.Json.Shape

/-!
# Static types

Every expression of a query has a static type: a scalar, the untyped
object, a row of an entity, a collection, or one of these made nullable.
Types serve three purposes. They are part of the signature by which a method
is looked up; they tell rows and collections from scalars; and they decide
whether the two branches of a conditional may stand side by side, which is
what `isCompatible` says.
-/

namespace ObjectQuery

/-- The static type of an expression. -/
inductive StaticType where
  | boolean
  | integer
  | decimal
  | string
  /-- A value of which no more is known. -/
  | object
  /-- `inner`, or null. -/
  | nullable (inner : StaticType)
  /-- A row of the entity of that name. -/
  | entity (name : String)
  /-- A sequence of elements. -/
  | collection (element : StaticType)
  deriving DecidableEq, Inhabited

namespace StaticType

/-- The type with nullability added, once. -/
def orNull : StaticType → StaticType
  | .nullable inner => .nullable inner
  | type => .nullable type

/-- The type with all nullability around it taken away. -/
def nonNull : StaticType → StaticType
  | .nullable inner => inner.nonNull
  | type => type

/-- Whether the type is a collection, nullable or not. -/
def isCollection (type : StaticType) : Bool :=
  match type.nonNull with
  | .collection _ => true
  | _ => false

/-- Whether the type is a row of an entity, nullable or not. -/
def isEntity (type : StaticType) : Bool :=
  match type.nonNull with
  | .entity _ => true
  | _ => false

/-- Whether the type is a row or a collection and no scalar. -/
def isRowOrCollection (type : StaticType) : Bool :=
  type.isCollection || type.isEntity

/-- Whether one of two types is the untyped object. -/
def eitherObject (a b : StaticType) : Bool :=
  a == .object || b == .object

/-- Whether two types without nullability around them are a whole number
and a decimal. -/
def bothNumeric : StaticType → StaticType → Bool
  | .integer, .decimal => true
  | .decimal, .integer => true
  | _, _ => false

/-- Whether branches of these two types may stand side by side: when,
nullability aside, they are equal, or one is the untyped object, or both
are numbers, or both are collections whose elements are compatible. -/
def isCompatible : StaticType → StaticType → Bool
  | .nullable a, b => a.isCompatible b
  | .collection a, b =>
    match b.nonNull with
    | .collection b => a.isCompatible b
    | b => b == .object
  | a, b => a == b.nonNull || eitherObject a b.nonNull || bothNumeric a b.nonNull

/-! ## Text -/

/-- The name of a type as signatures and messages give it. -/
def text : StaticType → String
  | .boolean => "Boolean"
  | .integer => "Int32"
  | .decimal => "Decimal"
  | .string => "String"
  | .object => "Object"
  | .nullable inner => inner.text ++ "?"
  | .entity name => name
  | .collection element => "IEnumerable<" ++ element.text ++ ">"

/-! ## JSON -/

/-- A type as JSON. -/
def toJson : StaticType → Json
  | .boolean => .string "Bool"
  | .integer => .string "Int"
  | .decimal => .string "Decimal"
  | .string => .string "String"
  | .object => .string "Object"
  | .nullable inner => .object [("Nullable", inner.toJson)]
  | .entity name => .object [("Entity", .string name)]
  | .collection element => .object [("Collection", element.toJson)]

/-- Reads a type. -/
def ofJson? (j : Json) : Option StaticType := do
  match ← j.variant? with
  | ("Nullable", some ⟨inner, _⟩) => return .nullable (← ofJson? inner)
  | ("Collection", some ⟨element, _⟩) => return .collection (← ofJson? element)
  | ("Entity", some ⟨name, _⟩) => return .entity (← name.string?)
  | (name, content) =>
    if Json.isEmptyContent content then
      match name with
      | "Bool" => some .boolean
      | "Int" => some .integer
      | "Decimal" => some .decimal
      | "String" => some .string
      | "Object" => some .object
      | _ => none
    else none
termination_by sizeOf j

end StaticType

end ObjectQuery
