import ObjectQuery.Lowering.Tail
import ObjectQuery.Method.Registry
import ObjectQuery.Traced

/-!
# Lowering models to queries

Lowering turns a model into a query of the target language, clause by
clause. Operators, properties, conditionals and coalesces have a node of
their own. What a call becomes is up to the handler registered for the
method.

A handler may let its calls be *distributed*: where an operand is a
conditional or coalesce that denotes a row or a collection, the call is made
once for each branch, and the decision moves outside of the call. Of several
such operands the leftmost is taken apart first, and a branch that can be
taken apart again is. An operand is therefore a pair of what is written and
how it lowers, and distribution passes operands to what remains to be done
with them. The operands of a call are lowered in their order only when all
of them are settled.

Subqueries may nest up to a limit. Every step is traced.

## Main definitions

* `Expr.lower` — the node of an expression.
* `Expr.distribution?` — how a call is distributed over an operand.
* `QueryModel.lower` — the query of a model.
-/

namespace ObjectQuery

open Hql (Node Query Aggregate)

/-- What happens while a model is lowered. -/
inductive LoweringEvent where
  /-- A subquery is entered, and so many subqueries are now around what is lowered. -/
  | entered (depth : Nat)
  /-- A call was passed to the handler of that name. -/
  | handled (method : MethodSignature) (handler : String)
  /-- A call is about to be distributed over the operand at `position`. -/
  | distributed (position : Nat) (method : MethodSignature)
  /-- A model was lowered completely. -/
  | lowered (depth : Nat) (model : QueryModel)

/-- A step of lowering. -/
abbrev Lowering (α : Type) : Type := Traced LoweringEvent LoweringError α

/-- Goes on if a tree is as it must be. -/
def Lowering.require (check : Except ModelError Unit) : Lowering Unit :=
  .ofExcept (check.mapError .malformed)

/-- An operand of a call. -/
structure Operand where
  /-- The operand as it is written. -/
  written : Expr
  /-- How it lowers. -/
  lowered : Lowering Node

/-- What stands around an operand over which a call is distributed. -/
structure OperandPlace where
  method : MethodSignature
  /-- Whether the handler lets the call be distributed. -/
  expansion : ArgumentExpansion
  /-- The number of the operand among all of them, from zero. -/
  position : Nat

/-- The place of the next operand. -/
def OperandPlace.next (place : OperandPlace) : OperandPlace :=
  { place with position := place.position + 1 }

/-- What is done with the operands that a call is left with. -/
def callHandler (handler : Handler) (method : MethodSignature) (target : Option Operand)
    (arguments : List Operand) : Lowering Node := do
  let loweredTarget ←
    match target with
    | none => pure none
    | some operand => do pure (some (← operand.lowered))
  let loweredArguments ← arguments.mapM Operand.lowered
  .emit (.handled method handler.name)
  .ofExcept <| handler.generator.emit {
    method
    target := target.map Operand.written
    arguments := arguments.map Operand.written
    loweredTarget
    loweredArguments }

/-- The node of a unary operator. -/
def unaryNode (operator : UnaryOperator) (operand : Node) (type : StaticType) : Node :=
  match operator with
  | .not => .not operand
  | .negate => .negate operand
  | .convert => operand.castTo type

/-- The node of a binary operator. -/
def binaryNode (operator : BinaryOperator) (left right : Node) : Node :=
  match operator with
  | .equal => .equality left right
  | .notEqual => .inequality left right
  | operator => .binary operator left right

mutual

/-- The node of an expression in a model at the given depth. -/
def Expr.lower (registry : Registry) (limit depth : Nat) : Expr → Lowering Node
  | .constant (.queryable entity) => pure (.entity entity)
  | .constant value => pure (.constant value)
  | .parameter name _ => pure (.parameter name)
  | .source name _ => pure (.ident name)
  | .unary operator operand type => do
    return unaryNode operator (← operand.lower registry limit depth) type
  | .binary operator left right => do
    let left ← left.lower registry limit depth
    return binaryNode operator left (← right.lower registry limit depth)
  | .member target name _ => do
    return .dot (← target.lower registry limit depth) name
  | .call method target arguments _ =>
    match registry.lookup method with
    | none => throw (.unsupportedMethod method)
    | some handler =>
      let first : OperandPlace := ⟨method, handler.expansion, 0⟩
      overTarget registry limit depth first target fun target =>
        overArguments registry limit depth (if target.isSome then first.next else first)
          arguments fun arguments =>
            callHandler handler method target arguments
  | .conditional test whenTrue whenFalse => do
    .require (checkBranches .whenTrue .whenFalse whenTrue whenFalse)
    let test ← test.lower registry limit depth
    let nodeTrue ← lowerBranch registry limit depth .whenTrue whenTrue
    return .ifThenElse test nodeTrue (← lowerBranch registry limit depth .whenFalse whenFalse)
  | .coalesce left right => do
    .require (checkBranches .coalesceLeft .coalesceRight left right)
    let nodeLeft ← lowerBranch registry limit depth .coalesceLeft left
    return .coalesce nodeLeft (← lowerBranch registry limit depth .coalesceRight right)
  | .subquery model => do
    if limit ≤ depth then throw (.tooDeep limit)
    .emit (.entered (depth + 1))
    return .ofQuery (← model.lower registry limit (depth + 1))

/-- How a call is distributed over an operand, if the operand is one to be
taken apart: given what is done with the operand that takes its place. -/
def Expr.distribution? (registry : Registry) (limit depth : Nat) (place : OperandPlace) :
    Expr → Option ((Operand → Lowering Node) → Lowering Node)
  | .conditional test whenTrue whenFalse =>
    if (Expr.conditional test whenTrue whenFalse).isExpandable then
      some fun proceed => do
        .require (checkBranches .whenTrue .whenFalse whenTrue whenFalse)
        let test ← test.lower registry limit depth
        .emit (.distributed place.position place.method)
        let nodeTrue ← overBranch registry limit depth place .whenTrue whenTrue proceed
        let nodeFalse ← overBranch registry limit depth place .whenFalse whenFalse proceed
        return .ifThenElse test nodeTrue nodeFalse
    else none
  | .coalesce left right =>
    if (Expr.coalesce left right).isExpandable then
      some fun proceed => do
        .require (checkBranches .coalesceLeft .coalesceRight left right)
        let test ← lowerBranch registry limit depth .coalesceLeft left
        .emit (.distributed place.position place.method)
        let nodeLeft ← overBranch registry limit depth place .coalesceLeft left proceed
        let nodeRight ← overBranch registry limit depth place .coalesceRight right proceed
        return .ifThenElse (.isNotNull test) nodeLeft nodeRight
    else none
  | _ => none

/-- The node of a branch. -/
def lowerBranch (registry : Registry) (limit depth : Nat) (side : BranchSide) :
    Option Expr → Lowering Node
  | none => throw (.malformed (.missingBranch side))
  | some e => e.lower registry limit depth

/-- A call with a branch in the place of an operand. -/
def overBranch (registry : Registry) (limit depth : Nat) (place : OperandPlace)
    (side : BranchSide) : Option Expr → (Operand → Lowering Node) → Lowering Node
  | none, _ => throw (.malformed (.missingBranch side))
  | some e, proceed =>
    match e.distribution? registry limit depth place with
    | some distribute => distribute proceed
    | none => proceed ⟨e, e.lower registry limit depth⟩

/-- A call distributed over its target. -/
def overTarget (registry : Registry) (limit depth : Nat) (place : OperandPlace) :
    Option Expr → (Option Operand → Lowering Node) → Lowering Node
  | none, proceed => proceed none
  | some e, proceed =>
    match place.expansion, e.distribution? registry limit depth place with
    | .bareBranching, some distribute => distribute fun operand => proceed (some operand)
    | _, _ => proceed (some ⟨e, e.lower registry limit depth⟩)

/-- A call distributed over its arguments. -/
def overArguments (registry : Registry) (limit depth : Nat) (place : OperandPlace) :
    List Expr → (List Operand → Lowering Node) → Lowering Node
  | [], proceed => proceed []
  | e :: rest, proceed =>
    let proceedWith (operand : Operand) : Lowering Node :=
      overArguments registry limit depth place.next rest fun operands =>
        proceed (operand :: operands)
    match place.expansion, e.distribution? registry limit depth place with
    | .bareBranching, some distribute => distribute proceedWith
    | _, _ => proceedWith ⟨e, e.lower registry limit depth⟩

/-- The node of a clause that may be absent. -/
def lowerOption (registry : Registry) (limit depth : Nat) :
    Option Expr → Lowering (Option Node)
  | none => pure none
  | some e => do return some (← e.lower registry limit depth)

/-- The joins of a model. -/
def lowerJoins (registry : Registry) (limit depth : Nat) :
    List JoinClause → Lowering (List Hql.Join)
  | [] => pure []
  | ⟨item, _, sequence, outerKey, innerKey⟩ :: rest => do
    let source ← sequence.lower registry limit depth
    let outer ← outerKey.lower registry limit depth
    let inner ← innerKey.lower registry limit depth
    return ⟨source, item, .equality outer inner⟩ :: (← lowerJoins registry limit depth rest)

/-- The orderings of a model. -/
def lowerOrderings (registry : Registry) (limit depth : Nat) :
    List OrderClause → Lowering (List Hql.OrderKey)
  | [] => pure []
  | ⟨key, direction⟩ :: rest => do
    let key ← key.lower registry limit depth
    return ⟨key, direction⟩ :: (← lowerOrderings registry limit depth rest)

/-- A tail with one more operator. -/
def lowerOperator (registry : Registry) (limit depth : Nat) (tail : Tail) :
    ResultOperator → Lowering Tail
  | .take count => do return tail.taking (← count.lower registry limit depth)
  | .skip count => do
    if tail.take.isSome then throw (.skipAfterTake (.skip count))
    return tail.skipping (← count.lower registry limit depth)
  | .distinct => pure tail.distinctly
  | .all predicate => do
    return tail.reducedBy (.all (← predicate.lower registry limit depth))
  | .contains item => do
    return tail.reducedBy (.contains (← item.lower registry limit depth))
  | .count => pure (tail.reducedBy .count)
  | .longCount => pure (tail.reducedBy .count)
  | .any => pure (tail.reducedBy .any)
  | .first => pure (tail.reducedBy .first)
  | .single => pure (tail.reducedBy .single)
  | .sum => pure (tail.reducedBy .sum)
  | .min => pure (tail.reducedBy .min)
  | .max => pure (tail.reducedBy .max)
  | .average => pure (tail.reducedBy .average)

/-- A tail with all result operators of a model. Nothing can follow the one
that leaves a single value. -/
def lowerOperators (registry : Registry) (limit depth : Nat) (tail : Tail) :
    List ResultOperator → Lowering Tail
  | [] => pure tail
  | operator :: rest => do
    if tail.aggregate.isSome then throw (.afterReduction operator)
    let tail ← lowerOperator registry limit depth tail operator
    lowerOperators registry limit depth tail rest

/-- The query of a model at the given depth. -/
def QueryModel.lower (registry : Registry) (limit depth : Nat) :
    QueryModel → Lowering Query
  | ⟨item, itemType, source, joins, filter, having, orderings, selector, operators⟩ => do
    let sourceNode ←
      match source with
      | none => throw (.malformed (.missingSource item))
      | some e => e.lower registry limit depth
    let joinNodes ← lowerJoins registry limit depth joins
    let filterNode ← lowerOption registry limit depth filter
    let havingNode ← lowerOption registry limit depth having
    let order ← lowerOrderings registry limit depth orderings
    let select ← lowerOption registry limit depth selector
    let tail ← lowerOperators registry limit depth .empty operators
    .emit (.lowered depth
      ⟨item, itemType, source, joins, filter, having, orderings, selector, operators⟩)
    return ⟨sourceNode, item, joinNodes, filterNode, havingNode, order, select,
      tail.distinct, tail.skip, tail.take, tail.aggregate⟩

end

/-- The query of a model that is not nested in another one. -/
def QueryModel.toQuery (registry : Registry) (limit : Nat) (model : QueryModel) :
    Lowering Query :=
  model.lower registry limit 0

end ObjectQuery
