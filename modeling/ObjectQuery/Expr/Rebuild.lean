import ObjectQuery.Expr.Branches

/-!
# Rebuilding an expression

A rebuilding walk makes a new expression out of an old one, operands first
and from left to right. What it does on the way is up to a `Rebuilder`: the
leaves, subqueries among them, may be replaced by anything, and the calls,
conditionals and coalesces are announced before their operands are
rebuilt. All other nodes are put together again around their new operands.

The rebuilder also says what is done about a missing branch when its turn
comes, that is after everything to the left of it has been rebuilt. A walk
that can fail ends there.
-/

namespace ObjectQuery

/-- What a rebuilding walk does at the nodes that it leaves to its user. -/
structure Rebuilder (m : Type → Type) where
  /-- What stands in place of a constant, a parameter, a reference to a
  source or a subquery. -/
  leaf : Expr → m Expr
  /-- Is told of a call, a conditional or a coalesce before its operands. -/
  enter : Expr → m Unit
  /-- What stands in place of a missing branch. -/
  missing : BranchSide → m Expr

/-- The rebuilder that changes nothing and refuses a missing branch. -/
def Rebuilder.keep : Rebuilder (Except ModelError) where
  leaf := pure
  enter _ := pure ()
  missing side := throw (.missingBranch side)

section

variable {m : Type → Type} [Monad m]

mutual

/-- The expression rebuilt. -/
def Expr.rebuild (r : Rebuilder m) : Expr → m Expr
  | .constant value => r.leaf (.constant value)
  | .parameter name type => r.leaf (.parameter name type)
  | .source name type => r.leaf (.source name type)
  | .subquery model => r.leaf (.subquery model)
  | .unary operator operand type => do
    return .unary operator (← operand.rebuild r) type
  | .binary operator left right => do
    let left ← left.rebuild r
    return .binary operator left (← right.rebuild r)
  | .member target name type => do
    return .member (← target.rebuild r) name type
  | .call method target arguments type => do
    r.enter (.call method target arguments type)
    let target ← rebuildOption r target
    return .call method target (← rebuildList r arguments) type
  | .conditional test whenTrue whenFalse => do
    r.enter (.conditional test whenTrue whenFalse)
    let test ← test.rebuild r
    let newTrue ← rebuildBranch r .whenTrue whenTrue
    return .conditional test (some newTrue) (some (← rebuildBranch r .whenFalse whenFalse))
  | .coalesce left right => do
    r.enter (.coalesce left right)
    let newLeft ← rebuildBranch r .coalesceLeft left
    return .coalesce (some newLeft) (some (← rebuildBranch r .coalesceRight right))

/-- An operand that may be absent, rebuilt. -/
def rebuildOption (r : Rebuilder m) : Option Expr → m (Option Expr)
  | none => pure none
  | some e => do return some (← e.rebuild r)

/-- A branch rebuilt, or what stands in its place. -/
def rebuildBranch (r : Rebuilder m) (side : BranchSide) : Option Expr → m Expr
  | none => r.missing side
  | some e => e.rebuild r

/-- Several operands rebuilt. -/
def rebuildList (r : Rebuilder m) : List Expr → m (List Expr)
  | [] => pure []
  | e :: rest => do
    let e ← e.rebuild r
    return e :: (← rebuildList r rest)

end

end

end ObjectQuery
