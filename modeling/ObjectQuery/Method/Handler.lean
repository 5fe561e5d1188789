import ObjectQuery.Hql.Build
import ObjectQuery.Expr.Encoding
import ObjectQuery.Lowering.Error

/-!
# Method handlers

A handler says what a call of a method becomes. It sees the call site: the
signature, the operands as they were written and the operands lowered. The
target of a call on an object is its first operand. Most handlers are one of
a few fixed generators; a custom one is any function of the call site.

The three string tests become matches against a pattern. Whatever stands
for the searched text must match literally, so the characters that mean
something in a pattern are escaped: at once where the text is a constant,
and by replacements when the query runs otherwise.
-/

namespace ObjectQuery

open Hql (Node)

/-- A call and its lowered operands. -/
structure CallSite where
  method : MethodSignature
  target : Option Expr
  arguments : List Expr
  loweredTarget : Option Node
  loweredArguments : List Node

namespace CallSite

/-- The lowered operands: the target, if there is one, and the arguments. -/
def operands (site : CallSite) : List Node :=
  site.loweredTarget.toList ++ site.loweredArguments

/-- The only operand. -/
def sole (site : CallSite) : Except LoweringError Node :=
  match site.operands with
  | [a] => .ok a
  | operands => .error (.operandCount site.method 1 operands.length)

/-- The only two operands. -/
def pair (site : CallSite) : Except LoweringError (Node × Node) :=
  match site.operands with
  | [a, b] => .ok (a, b)
  | operands => .error (.operandCount site.method 2 operands.length)

end CallSite

/-- What a handler makes of a call. -/
inductive Generator where
  /-- The equality of the two operands. -/
  | equality
  /-- A function of all operands. -/
  | function (name : String)
  /-- Whether the first operand starts with the second. -/
  | startsWith
  /-- Whether the first operand ends with the second. -/
  | endsWith
  /-- Whether the first operand contains the second. -/
  | stringContains
  /-- Whether the second operand is an element of the first. -/
  | collectionContains
  /-- Whether the operand has an element. -/
  | collectionAny
  /-- How many elements the operand has. -/
  | collectionCount
  /-- An operator between the two operands. -/
  | binary (operator : BinaryOperator)
  | custom (emit : CallSite → Except LoweringError Node)

/-- A short description of a generator. -/
def Generator.text : Generator → String
  | .equality => "Equality"
  | .function name => "Function(" ++ name ++ ")"
  | .startsWith => "StartsWith"
  | .endsWith => "EndsWith"
  | .stringContains => "StringContains"
  | .collectionContains => "CollectionContains"
  | .collectionAny => "CollectionAny"
  | .collectionCount => "CollectionCount"
  | .binary operator => "BinaryOperator(" ++ operator.caseName ++ ")"
  | .custom _ => "Custom"

/-! ## Literal matching -/

/-- The escape character of the patterns built for string tests. -/
def patternEscape : Char := '\\'

/-- The characters that mean something in such a pattern. -/
def patternSpecials : List Char := [patternEscape, '%', '_']

/-- The text of a pattern that matches `cs` literally. -/
def escapePattern (cs : List Char) : List Char :=
  cs.flatMap fun c => if c ∈ patternSpecials then [patternEscape, c] else [c]

/-- A node for a pattern that matches the value of `operand` literally. -/
def literalPattern (operand : Node) : Node :=
  match operand with
  | .constant (.string s) => .string (String.ofList (escapePattern s.toList))
  | operand =>
    patternSpecials.foldl
      (fun escaped special =>
        .function "replace" [escaped, .string (String.singleton special),
          .string (String.ofList [patternEscape, special])])
      operand

/-- A pattern that lets anything follow. -/
def anyRunPattern : Node := .string "%"

/-! ## Emission -/

/-- The node that a generator makes of a call. -/
def Generator.emit (generator : Generator) (site : CallSite) : Except LoweringError Node :=
  match generator with
  | .equality => do
    let (a, b) ← site.pair
    return .equality a b
  | .function name => .ok (.function name site.operands)
  | .startsWith => do
    let (a, b) ← site.pair
    return .like a (.concat [literalPattern b, anyRunPattern]) (some patternEscape)
  | .endsWith => do
    let (a, b) ← site.pair
    return .like a (.concat [anyRunPattern, literalPattern b]) (some patternEscape)
  | .stringContains => do
    let (a, b) ← site.pair
    return .like a (.concat [anyRunPattern, literalPattern b, anyRunPattern])
      (some patternEscape)
  | .collectionContains => do
    let (a, b) ← site.pair
    return .among b a
  | .collectionAny => do return .function "exists" [← site.sole]
  | .collectionCount => do return .function "size" [← site.sole]
  | .binary operator => do
    let (a, b) ← site.pair
    return .binary operator a b
  | .custom emit => emit site

/-! ## Handlers -/

/-- Whether a call may be distributed over the branches of an operand. -/
inductive ArgumentExpansion where
  | never
  /-- Over a conditional or coalesce that is itself an operand and denotes a
  row or a collection. -/
  | bareBranching
  deriving DecidableEq, Inhabited

/-- The name of a mode of expansion. -/
def ArgumentExpansion.text : ArgumentExpansion → String
  | .never => "Never"
  | .bareBranching => "BareBranching"

/-- What is registered for a method. -/
structure Handler where
  name : String
  generator : Generator
  /-- The methods for which the handler is meant. -/
  methods : List MethodSignature
  expansion : ArgumentExpansion

end ObjectQuery
