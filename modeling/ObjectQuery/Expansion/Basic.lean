import ObjectQuery.Expansion.Source
import ObjectQuery.Expr.Clauses
import ObjectQuery.Traced

/-!
# Expansion of a model

Every subquery in the clause expressions of a model is expanded where its
source is a decision between branches, after the same has been done for the
clause expressions of the subquery itself. Main sources and joins are not
looked into. Each expansion is traced, so a model has changed if and only
if the trace is not empty.

Subqueries may nest up to a limit. What is left of it is counted down on
the way in, which is also why the expansion ends.
-/

namespace ObjectQuery

/-- A subquery was expanded: the source it read from, and the expression
that took its place. -/
structure ExpansionEvent where
  source : Expr
  result : Expr

/-- Why a model cannot be expanded. -/
inductive ExpansionError where
  | malformed (error : ModelError)
  /-- Subqueries nest deeper than allowed. -/
  | tooDeep (limit : Nat)
  deriving DecidableEq

/-- The message of an error. -/
def ExpansionError.message : ExpansionError → String
  | .malformed error => "SubQueryConditionalExpansion: " ++ error.message
  | .tooDeep limit =>
    "SubQueryConditionalExpansion: subquery nesting exceeds the configured limit of " ++
      toString limit

/-- A step of expansion. -/
abbrev Expansion (α : Type) : Type := Traced ExpansionEvent ExpansionError α

namespace Expansion

/-- A part of the expansion that only malformed trees make fail. -/
def ofModel {α : Type} (outcome : Except ModelError α) : Expansion α :=
  .ofExcept (outcome.mapError .malformed)

/-- The rebuilder of clause expressions: subqueries are replaced, and every
branching node is checked. -/
def rebuilder (replace : QueryModel → Expansion Expr) : Rebuilder Expansion where
  leaf
    | .subquery model => replace model
    | e => pure e
  enter e := ofModel e.checkBranches
  missing side := ofModel (.error (.missingBranch side))

/-- What stands in place of a subquery whose own clauses are expanded. -/
def ofSubquery (model : QueryModel) : Expansion Expr := do
  let source ← ofModel model.mainSource
  match ← ofModel (model.expandSource? source) with
  | none => return .subquery model
  | some result =>
    .emit ⟨source, result⟩
    return result

end Expansion

/-- A model with its clause expressions expanded, in which subqueries may
nest `budget` deep; `limit` is for the error. -/
def QueryModel.expandWithin (limit : Nat) : (budget : Nat) → QueryModel → Expansion QueryModel
  | 0, model => model.mapClausesM <| Expr.rebuild <| Expansion.rebuilder fun _ =>
    throw (.tooDeep limit)
  | budget + 1, model => model.mapClausesM <| Expr.rebuild <| Expansion.rebuilder fun nested => do
    Expansion.ofSubquery (← nested.expandWithin limit budget)

/-- A model with its clause expressions expanded. -/
def QueryModel.expand (limit : Nat) (model : QueryModel) : Expansion QueryModel :=
  model.expandWithin limit limit

/-- Whether an expansion changed something. -/
def Expansion.changed {α : Type} (expansion : Expansion α) : Bool :=
  !expansion.events.isEmpty

/-- Expands the model in place and tells whether that changed it. The new
model is complete before it takes the place of the old one, so an error
leaves the old one there. -/
def expandInPlace (limit : Nat) : ExceptT ExpansionError (StateM QueryModel) Bool := do
  let expansion := (← get).expand limit
  let result ← ExceptT.mk (pure expansion.outcome)
  if expansion.changed then
    set result
    return true
  else return false

end ObjectQuery
