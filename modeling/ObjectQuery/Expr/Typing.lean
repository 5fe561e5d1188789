import ObjectQuery.Expr.Basic

/-!
# The static type of an expression

Types are found without any environment: what refers to something outside
of the expression carries its type with it. A branching node has the type
of its first branch that is present, and a coalesce is never nullable on
that account. A subquery has the type of what its model results in.

An *expandable branching* is a conditional or coalesce that denotes a row
or a collection. Only such a node, and only where it stands by itself, is
ever distributed over what consumes it; a cast or an operator around it
makes it an ordinary operand.
-/

namespace ObjectQuery

/-- The type of what a query yields when its elements have type `element`
and it ends in the given reduction, or in none. -/
def reducedType (element : StaticType) : Option ResultOperator → StaticType
  | some .count | some .longCount => .integer
  | some .any | some (.all _) | some (.contains _) => .boolean
  | some .average => .decimal
  | some _ => element
  | none => .collection element

mutual

/-- The static type of an expression. -/
def Expr.type : Expr → StaticType
  | .constant value => value.type
  | .parameter _ type => type
  | .unary .not _ _ => .boolean
  | .unary .negate operand _ => operand.type
  | .unary .convert _ type => type
  | .binary operator left _ => if operator.isArithmetic then left.type else .boolean
  | .member _ _ type => type
  | .call _ _ _ type => type
  | .conditional _ (some e) _ => e.type
  | .conditional _ none (some e) => e.type
  | .conditional _ none none => .object
  | .coalesce (some e) _ => e.type.nonNull
  | .coalesce none (some e) => e.type.nonNull
  | .coalesce none none => .object
  | .source _ type => type
  | .subquery model => model.resultType

/-- The type of the value that a whole query yields. -/
def QueryModel.resultType : QueryModel → StaticType
  | ⟨_, itemType, _, _, _, _, _, selector, operators⟩ =>
    let element :=
      match selector with
      | some e => e.type
      | none => itemType
    reducedType element (operators.reverse.find? ResultOperator.isScalar)

end

/-- The type of each element that a query selects. -/
def QueryModel.elementType (model : QueryModel) : StaticType :=
  match model.selector with
  | some e => e.type
  | none => model.itemType

theorem QueryModel.resultType_eq (model : QueryModel) :
    model.resultType = reducedType model.elementType model.reduction? := by
  cases model with
  | mk _ _ _ _ _ _ _ selector _ => cases selector <;> rfl

/-- Whether a node may be distributed over what consumes it. -/
def Expr.isExpandable (e : Expr) : Bool :=
  e.isBranching && e.type.isRowOrCollection

end ObjectQuery
