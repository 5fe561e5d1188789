import ObjectQuery.Method.Registry

/-!
# The default handlers

What is understood without further registration: equality of objects and of
the scalars, tests and functions on strings, a little arithmetic, and the
membership, existence and count of collections. A generic method stands
under its definition, with the untyped object for every type parameter.

Equality and the methods on collections may be distributed over the
branches of an operand.
-/

namespace ObjectQuery

/-- The equality of an object of type `type` with another one. -/
def equalsMethod (type : StaticType) : MethodSignature :=
  ⟨type.text, "Equals", [type]⟩

/-- A test of a string against another one. -/
def stringTest (name : String) : MethodSignature :=
  ⟨"String", name, [.string]⟩

/-- A collection of no matter what. -/
def anyCollection : StaticType := .collection .object

/-- Membership in a collection. -/
def containsMethod : MethodSignature :=
  ⟨"Enumerable", "Contains", [anyCollection, .object]⟩

/-- Existence of an element in a collection. -/
def anyMethod : MethodSignature :=
  ⟨"Enumerable", "Any", [anyCollection]⟩

/-- The number of elements of a collection. -/
def countMethod : MethodSignature :=
  ⟨"Enumerable", "Count", [anyCollection]⟩

/-- The equality of two objects as a static method. -/
def staticEquals : MethodSignature :=
  ⟨"Object", "Equals", [.object, .object]⟩

/-- A function on strings, under the name the client uses and the name the
query language uses. -/
def stringFunction (name hqlName : String) : Handler :=
  ⟨name, .function hqlName, [⟨"String", name, []⟩], .never⟩

/-- An arithmetic method on decimals. -/
def decimalMethod (name : String) (operator : BinaryOperator) : Handler :=
  ⟨name, .binary operator, [⟨"Decimal", name, [.decimal, .decimal]⟩], .never⟩

/-- The default handlers. -/
def defaultHandlers : List Handler := [
  ⟨"Equals", .equality,
    [.string, .integer, .decimal, .boolean, .object].map equalsMethod ++ [staticEquals],
    .bareBranching⟩,
  ⟨"StartsWith", .startsWith, [stringTest "StartsWith"], .never⟩,
  ⟨"EndsWith", .endsWith, [stringTest "EndsWith"], .never⟩,
  ⟨"Contains", .stringContains, [stringTest "Contains"], .never⟩,
  stringFunction "ToUpper" "upper",
  stringFunction "ToLower" "lower",
  stringFunction "Trim" "trim",
  stringFunction "get_Length" "length",
  ⟨"Abs", .function "abs", [⟨"Math", "Abs", [.integer]⟩, ⟨"Math", "Abs", [.decimal]⟩], .never⟩,
  decimalMethod "Add" .add,
  decimalMethod "Subtract" .subtract,
  decimalMethod "Multiply" .multiply,
  decimalMethod "Divide" .divide,
  ⟨"CollectionContains", .collectionContains, [containsMethod], .bareBranching⟩,
  ⟨"CollectionAny", .collectionAny, [anyMethod], .bareBranching⟩,
  ⟨"CollectionCount", .collectionCount, [countMethod], .bareBranching⟩]

namespace Registry

/-- The registry of the default handlers. -/
def builtin : Registry :=
  defaultHandlers.foldl merge empty

/-- A registry that knows the default handlers and can be added to. -/
def withDefaults : Registry :=
  childOf builtin

end Registry

end ObjectQuery
