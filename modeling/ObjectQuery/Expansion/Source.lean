import ObjectQuery.Expansion.Nominations
import ObjectQuery.Expr.Rebuild

/-!
# Expansion of a source

A subquery that reads from one of several branches is expanded into the same
decision between several subqueries, each reading from its own branch.

Only the conditionals and coalesces that are reached from the root of the
source through branch positions are taken apart. A branch is expanded where
it refers to an item of a source that the subquery does not introduce
itself; a reference that stands in the test of a conditional does not
count. Once a branch is expanded, so is every branch beside it that denotes a
collection. Whatever is neither stays as it is.

An expanded coalesce becomes a conditional on its left operand being
present. A coalesce of the two subqueries would fall through to the second
one where the first reads from an empty collection and results in null.
-/

namespace ObjectQuery

/-- A step in expanding a source: it keeps account of the nominations, also
where it fails. -/
abbrev SourceExpansion (α : Type) : Type :=
  ExceptT ModelError (StateM Nominations) α

namespace SourceExpansion

/-- Goes on if a tree is as it must be. -/
def require (check : Except ModelError Unit) : SourceExpansion Unit :=
  ExceptT.mk (pure check)

/-- A step during which nomination is suspended. -/
def suspended {α : Type} (step : SourceExpansion α) : SourceExpansion α :=
  ExceptT.mk do
    modify Nominations.suspend
    let outcome ← step.run
    modify Nominations.resume
    return outcome

/-- A step inside of a branch, and whether it nominated the branch. -/
def insideBranch {α : Type} (step : SourceExpansion α) : SourceExpansion (α × Bool) :=
  ExceptT.mk do
    modify Nominations.push
    let outcome ← step.run
    let nominated ← modifyGet fun n => (n.isNominated, n.pop)
    return outcome.map (·, nominated)

end SourceExpansion

/-- The rebuilder that changes nothing, nominates the innermost open branch
wherever it meets a reference to a source that is not one of the subquery's
own, and checks every branching node. -/
def nominatingRebuilder (own : List String) : Rebuilder SourceExpansion where
  leaf
    | .source name type => do
      unless own.contains name do modify Nominations.nominate
      return .source name type
    | e => pure e
  enter e := .require e.checkBranches
  missing side := throw (.missingBranch side)

/-- A node of the source, taken apart as far as it is to be. -/
structure SourceNode where
  expr : Expr
  /-- Whether a branch of the node became a subquery. -/
  expanded : Bool

/-- The subquery with another source. -/
def QueryModel.reading (model : QueryModel) (source : Expr) : Expr :=
  .subquery (model.withSource source)

/-- A branch is expanded as a whole if it is nominated, denotes a collection
and has not been expanded in parts. -/
def SourceNode.close (model : QueryModel) (node : SourceNode) (nominated : Bool) : SourceNode :=
  if !node.expanded && nominated && node.expr.type.isCollection then
    ⟨model.reading node.expr, true⟩
  else node

/-- A branch beside an expanded one: it is expanded too if it denotes a
collection. -/
def SourceNode.complete (model : QueryModel) (node : SourceNode) : Expr :=
  if !node.expanded && node.expr.type.isCollection then model.reading node.expr else node.expr

/-- Two branches side by side, and whether either is expanded. -/
def completeBranches (model : QueryModel) (first second : SourceNode) : Expr × Expr × Bool :=
  if first.expanded || second.expanded then
    (first.complete model, second.complete model, true)
  else (first.expr, second.expr, false)

/-- The test of an expanded coalesce. -/
def Expr.isPresent (e : Expr) : Expr :=
  .binary .notEqual e (.constant .null)

/-- The node in place of a conditional. -/
def rebuiltConditional (model : QueryModel) (test : Expr) (first second : SourceNode) :
    Except ModelError SourceNode := do
  let (whenTrue, whenFalse, expanded) := completeBranches model first second
  checkFit whenTrue whenFalse
  return ⟨.conditional test (some whenTrue) (some whenFalse), expanded⟩

/-- The node in place of a coalesce whose left operand is `left`. -/
def rebuiltCoalesce (model : QueryModel) (left : Expr) (first second : SourceNode) :
    Except ModelError SourceNode := do
  let (present, otherwise, expanded) := completeBranches model first second
  if expanded then
    checkFit present otherwise
    return ⟨.conditional left.isPresent (some present) (some otherwise), true⟩
  else return ⟨.coalesce (some present) (some otherwise), false⟩

mutual

/-- A node of the source of a subquery, taken apart. -/
def Expr.takeApart (model : QueryModel) : Expr → SourceExpansion SourceNode
  | .conditional test whenTrue whenFalse => do
    .require (checkBranches .whenTrue .whenFalse whenTrue whenFalse)
    let test ← SourceExpansion.suspended <|
      test.rebuild (nominatingRebuilder model.sourceNames)
    let first ← takeApartBranch model .whenTrue whenTrue
    let second ← takeApartBranch model .whenFalse whenFalse
    ExceptT.mk (pure (rebuiltConditional model test first second))
  | .coalesce left right => do
    .require (checkBranches .coalesceLeft .coalesceRight left right)
    let first ← takeApartBranch model .coalesceLeft left
    let second ← takeApartBranch model .coalesceRight right
    ExceptT.mk (pure (rebuiltCoalesce model (left.getD default) first second))
  | e => do return ⟨← e.rebuild (nominatingRebuilder model.sourceNames), false⟩

/-- A branch of the source of a subquery, taken apart. -/
def takeApartBranch (model : QueryModel) (side : BranchSide) :
    Option Expr → SourceExpansion SourceNode
  | none => throw (.missingBranch side)
  | some e => do
    let (node, nominated) ← SourceExpansion.insideBranch (e.takeApart model)
    return node.close model nominated

end

/-- What stands in place of a subquery: the decision between subqueries, if
its source is to be expanded. -/
def QueryModel.expandSource? (model : QueryModel) (source : Expr) :
    Except ModelError (Option Expr) := do
  if source.isBranching then
    let node ← ((source.takeApart model).run .empty).1
    return if node.expanded then some node.expr else none
  else return none

end ObjectQuery
