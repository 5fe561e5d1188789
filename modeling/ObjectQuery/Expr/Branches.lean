import ObjectQuery.Expr.Typing

/-!
# Malformed trees

A tree is malformed where a branch or a main source is missing and where
the two branches of a node have types that cannot stand side by side. Two
branches can when their types are compatible, and also whenever one of them
is the null constant itself, which fits beside anything.

Where several things are wrong with one node, the missing first branch is
reported before the missing second one, and both before the types.
-/

namespace ObjectQuery

/-- A branch position. -/
inductive BranchSide where
  | whenTrue
  | whenFalse
  | coalesceLeft
  | coalesceRight
  deriving DecidableEq, Inhabited

/-- The name of a branch position in messages. -/
def BranchSide.text : BranchSide → String
  | .whenTrue => "if-true branch of a conditional"
  | .whenFalse => "if-false branch of a conditional"
  | .coalesceLeft => "left operand of a coalesce"
  | .coalesceRight => "fallback operand of a coalesce"

/-- What is wrong with a malformed tree. -/
inductive ModelError where
  | missingBranch (side : BranchSide)
  /-- The model that reads its items as `item` has no main source. -/
  | missingSource (item : String)
  | incompatibleBranches (left right : StaticType)
  deriving DecidableEq, Inhabited

/-- The message of an error. -/
def ModelError.message : ModelError → String
  | .missingBranch side => "Malformed expression: missing " ++ side.text
  | .missingSource item =>
    "Malformed expression: subquery over '" ++ item ++ "' has no main source expression"
  | .incompatibleBranches left right =>
    "Malformed expression: incompatible branch types " ++ left.text ++ " and " ++ right.text

/-- Whether two expressions may be branches of one node. -/
def Expr.fitsBeside (left right : Expr) : Bool :=
  left.isNullConstant || right.isNullConstant || left.type.isCompatible right.type

/-- Checks two branches that are present. -/
def checkFit (left right : Expr) : Except ModelError Unit :=
  if left.fitsBeside right then .ok () else .error (.incompatibleBranches left.type right.type)

/-- Checks the two branches in the given positions. -/
def checkBranches (leftSide rightSide : BranchSide) :
    Option Expr → Option Expr → Except ModelError Unit
  | none, _ => .error (.missingBranch leftSide)
  | some _, none => .error (.missingBranch rightSide)
  | some left, some right => checkFit left right

/-- Checks the branches of a conditional or coalesce; any other node has
none. -/
def Expr.checkBranches : Expr → Except ModelError Unit
  | .conditional _ whenTrue whenFalse =>
    ObjectQuery.checkBranches .whenTrue .whenFalse whenTrue whenFalse
  | .coalesce left right =>
    ObjectQuery.checkBranches .coalesceLeft .coalesceRight left right
  | _ => .ok ()

/-- The main source of a model. -/
def QueryModel.mainSource (model : QueryModel) : Except ModelError Expr :=
  match model.source with
  | some source => .ok source
  | none => .error (.missingSource model.item)

end ObjectQuery
