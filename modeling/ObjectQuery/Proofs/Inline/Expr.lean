import ObjectQuery.Proofs.Inline.Node
import ObjectQuery.Proofs.Lowering.Models

/-!
# Models with a literal in the place of a parameter

A parameter may occur anywhere in a model, in sources and joins as well as
in clauses, and in the models of subqueries. `QueryModel.inline` puts a
literal in the place of all its occurrences.

An occurrence carries the type that the parameter is declared with. Where
this is the type of the literal, inlining keeps the type of every
expression, and with it everything that is decided by types: which branches
fit, and which operands of a call are taken apart.

## Main definitions

* `Expr.inline`, `QueryModel.inline` — a literal in the place of a parameter.
* `Expr.Declares`, `QueryModel.Declares` — a parameter is declared with one
  type only.

## Main results

* `Expr.inline_not_mentions` — inlining leaves no occurrence.
* `Expr.inline_type` — inlining keeps types.
* `Expr.inline_isSound_iff` — inlining keeps branches that fit.
-/

namespace ObjectQuery

/-! ## Inlining -/

mutual

/-- The expression with a literal in the place of a parameter. -/
def Expr.inline (name : String) (value : Literal) : Expr → Expr
  | .constant literal => .constant literal
  | .parameter other type => if other = name then .constant value else .parameter other type
  | .unary operator operand type => .unary operator (operand.inline name value) type
  | .binary operator left right =>
    .binary operator (left.inline name value) (right.inline name value)
  | .member target property type => .member (target.inline name value) property type
  | .call method target arguments type =>
    .call method (inlineOption name value target) (inlineList name value arguments) type
  | .conditional test whenTrue whenFalse =>
    .conditional (test.inline name value) (inlineOption name value whenTrue)
      (inlineOption name value whenFalse)
  | .coalesce left right =>
    .coalesce (inlineOption name value left) (inlineOption name value right)
  | .source item type => .source item type
  | .subquery model => .subquery (model.inline name value)

/-- An expression that may be absent, with a literal in the place of a
parameter. -/
def inlineOption (name : String) (value : Literal) : Option Expr → Option Expr
  | none => none
  | some e => some (e.inline name value)

/-- Several expressions with a literal in the place of a parameter. -/
def inlineList (name : String) (value : Literal) : List Expr → List Expr
  | [] => []
  | e :: rest => e.inline name value :: inlineList name value rest

/-- Joins with a literal in the place of a parameter. -/
def inlineJoins (name : String) (value : Literal) : List JoinClause → List JoinClause
  | [] => []
  | ⟨item, itemType, sequence, outerKey, innerKey⟩ :: rest =>
    ⟨item, itemType, sequence.inline name value, outerKey.inline name value,
      innerKey.inline name value⟩ :: inlineJoins name value rest

/-- Orderings with a literal in the place of a parameter. -/
def inlineOrderings (name : String) (value : Literal) : List OrderClause → List OrderClause
  | [] => []
  | ⟨key, direction⟩ :: rest =>
    ⟨key.inline name value, direction⟩ :: inlineOrderings name value rest

/-- Result operators with a literal in the place of a parameter. -/
def inlineOperators (name : String) (value : Literal) : List ResultOperator → List ResultOperator
  | [] => []
  | .all predicate :: rest => .all (predicate.inline name value) :: inlineOperators name value rest
  | .take count :: rest => .take (count.inline name value) :: inlineOperators name value rest
  | .skip count :: rest => .skip (count.inline name value) :: inlineOperators name value rest
  | .contains item :: rest =>
    .contains (item.inline name value) :: inlineOperators name value rest
  | operator :: rest => operator :: inlineOperators name value rest

/-- The model with a literal in the place of a parameter, wherever it occurs. -/
def QueryModel.inline (name : String) (value : Literal) : QueryModel → QueryModel
  | ⟨item, itemType, source, joins, filter, having, orderings, selector, operators⟩ =>
    ⟨item, itemType, inlineOption name value source, inlineJoins name value joins,
      inlineOption name value filter, inlineOption name value having,
      inlineOrderings name value orderings, inlineOption name value selector,
      inlineOperators name value operators⟩

end

/-- The join with a literal in the place of a parameter. -/
def JoinClause.inline (name : String) (value : Literal) (j : JoinClause) : JoinClause :=
  ⟨j.item, j.itemType, j.sequence.inline name value, j.outerKey.inline name value,
    j.innerKey.inline name value⟩

/-- The ordering with a literal in the place of a parameter. -/
def OrderClause.inline (name : String) (value : Literal) (o : OrderClause) : OrderClause :=
  ⟨o.key.inline name value, o.direction⟩

/-- The operator with a literal in the place of a parameter. -/
def ResultOperator.inline (name : String) (value : Literal) (operator : ResultOperator) :
    ResultOperator :=
  match operator.operand? with
  | none => operator
  | some e => operator.withOperand (e.inline name value)

section

variable {name : String} {value : Literal}

@[simp] theorem inlineOption_eq (o : Option Expr) :
    inlineOption name value o = o.map (Expr.inline name value) := by
  cases o <;> rfl

@[simp] theorem inlineList_eq (es : List Expr) :
    inlineList name value es = es.map (Expr.inline name value) := by
  induction es with
  | nil => rfl
  | cons e rest ih => rw [inlineList, ih, List.map_cons]

@[simp] theorem inlineJoins_eq (joins : List JoinClause) :
    inlineJoins name value joins = joins.map (JoinClause.inline name value) := by
  induction joins with
  | nil => rfl
  | cons j rest ih =>
      obtain ⟨item, itemType, sequence, outerKey, innerKey⟩ := j
      rw [inlineJoins, ih]
      rfl

@[simp] theorem inlineOrderings_eq (orderings : List OrderClause) :
    inlineOrderings name value orderings = orderings.map (OrderClause.inline name value) := by
  induction orderings with
  | nil => rfl
  | cons o rest ih =>
      obtain ⟨key, direction⟩ := o
      rw [inlineOrderings, ih]
      rfl

@[simp] theorem inlineOperators_eq (operators : List ResultOperator) :
    inlineOperators name value operators = operators.map (ResultOperator.inline name value) := by
  induction operators with
  | nil => rfl
  | cons operator rest ih =>
      cases operator <;>
        · simp only [inlineOperators, ih]
          rfl

theorem QueryModel.inline_eq (model : QueryModel) :
    model.inline name value = {
      item := model.item
      itemType := model.itemType
      source := model.source.map (Expr.inline name value)
      joins := model.joins.map (JoinClause.inline name value)
      filter := model.filter.map (Expr.inline name value)
      having := model.having.map (Expr.inline name value)
      orderings := model.orderings.map (OrderClause.inline name value)
      selector := model.selector.map (Expr.inline name value)
      operators := model.operators.map (ResultOperator.inline name value) } := by
  cases model
  simp [inline]

private theorem ResultOperator.operand?_inline (operator : ResultOperator) :
    (operator.inline name value).operand? = operator.operand?.map (Expr.inline name value) := by
  cases operator <;> rfl

theorem QueryModel.inline_source (model : QueryModel) :
    (model.inline name value).source = model.source.map (Expr.inline name value) := by
  rw [inline_eq]

theorem QueryModel.inline_sourceNames (model : QueryModel) :
    (model.inline name value).sourceNames = model.sourceNames := by
  rw [inline_eq, sourceNames, sourceNames, List.map_map]
  rfl

theorem QueryModel.inline_withSource (model : QueryModel) (source : Expr) :
    (model.withSource source).inline name value =
      (model.inline name value).withSource (source.inline name value) := by
  rw [inline_eq, inline_eq]
  rfl

/-- The clause expressions of a model with a parameter inlined. -/
theorem QueryModel.inline_clauseExpressions (model : QueryModel) :
    (model.inline name value).clauseExpressions =
      model.clauseExpressions.map (Expr.inline name value) := by
  have horderings : (model.orderings.map (OrderClause.inline name value)).map OrderClause.key =
      (model.orderings.map OrderClause.key).map (Expr.inline name value) := by
    rw [List.map_map, List.map_map]
    rfl
  have hoperators : (model.operators.map (ResultOperator.inline name value)).filterMap
      ResultOperator.operand? =
        (model.operators.filterMap ResultOperator.operand?).map (Expr.inline name value) := by
    rw [List.filterMap_map, List.map_filterMap]
    congr 1
    funext operator
    exact operator.operand?_inline
  rw [inline_eq]
  simp only [clauseExpressions, Option.toList_map, horderings, hoperators, List.map_append]

/-- The source expressions of a model with a parameter inlined. -/
theorem QueryModel.inline_sourceExpressions (model : QueryModel) :
    (model.inline name value).sourceExpressions =
      model.sourceExpressions.map (Expr.inline name value) := by
  rw [inline_eq]
  simp only [sourceExpressions, Option.toList_map, List.map_append, List.flatMap_map,
    List.map_flatMap]
  rfl

end

/-! ## Where a parameter occurs -/

/-- All expressions of a model. -/
def QueryModel.expressions (model : QueryModel) : List Expr :=
  model.sourceExpressions ++ model.clauseExpressions

/-- The parameter occurs in the expression, declared with the type. -/
inductive Expr.Mentions (name : String) (type : StaticType) : Expr → Prop
  | parameter : Mentions name type (.parameter name type)
  | operand {e operand : Expr} : operand ∈ e.operands → Mentions name type operand →
    Mentions name type e
  | subquery {model : QueryModel} {e : Expr} : e ∈ model.expressions → Mentions name type e →
    Mentions name type (.subquery model)

/-- Wherever the parameter occurs in the expression, it is declared with the
type. -/
def Expr.Declares (name : String) (type : StaticType) (e : Expr) : Prop :=
  ∀ other, e.Mentions name other → other = type

/-- Wherever the parameter occurs in the model, it is declared with the type. -/
def QueryModel.Declares (name : String) (type : StaticType) (model : QueryModel) : Prop :=
  ∀ e ∈ model.expressions, e.Declares name type

section

variable {name : String} {type : StaticType} {model : QueryModel} {e : Expr}

theorem Expr.Declares.operand (h : e.Declares name type) {operand : Expr}
    (hoperand : operand ∈ e.operands) : operand.Declares name type := fun other hmentions =>
  h other (.operand hoperand hmentions)

theorem Expr.declares_subquery :
    (subquery model).Declares name type ↔ model.Declares name type := by
  constructor
  · intro h e he other hmentions
    exact h other (.subquery he hmentions)
  · intro h other hmentions
    cases hmentions with
    | operand hoperand => cases hoperand
    | subquery he hmentions => exact h _ he other hmentions

/-- Whatever is no parameter and no subquery declares what its operands do. -/
theorem Expr.declares_of_operands (hparameter : ∀ other t, e ≠ .parameter other t)
    (hsubquery : ∀ model, e ≠ .subquery model)
    (h : ∀ operand ∈ e.operands, operand.Declares name type) : e.Declares name type := by
  intro other hmentions
  cases hmentions with
  | parameter => exact absurd rfl (hparameter name other)
  | operand hoperand hmentions => exact h _ hoperand other hmentions
  | subquery => exact absurd rfl (hsubquery _)

theorem Expr.declares_constant (literal : Literal) : (constant literal).Declares name type := by
  apply declares_of_operands (by simp) (by simp)
  simp [operands]

theorem Expr.declares_source (item : String) (t : StaticType) :
    (Expr.source item t).Declares name type := by
  apply declares_of_operands (by simp) (by simp)
  simp [operands]

theorem Expr.declares_parameter : (parameter name type).Declares name type := by
  intro other hmentions
  cases hmentions with
  | parameter => rfl
  | operand hoperand => cases hoperand

theorem Expr.declares_member {property : String} {t : StaticType} (h : e.Declares name type) :
    (member e property t).Declares name type := by
  apply declares_of_operands (by simp) (by simp)
  simp [operands, h]

theorem QueryModel.Declares.source (h : model.Declares name type) {source : Expr}
    (hsource : model.source = some source) : source.Declares name type := by
  apply h
  simp [expressions, sourceExpressions, hsource]

theorem QueryModel.Declares.clause (h : model.Declares name type)
    (he : e ∈ model.clauseExpressions) : e.Declares name type :=
  h e (List.mem_append_right _ he)

theorem QueryModel.Declares.withSource (h : model.Declares name type)
    (he : e.Declares name type) : (model.withSource e).Declares name type := by
  intro e' he'
  rcases List.mem_append.mp he' with hsource | hclause
  · rcases List.mem_append.mp hsource with hmain | hjoins
    · rw [List.mem_singleton.mp hmain]
      exact he
    · exact h e' (List.mem_append_left _ (List.mem_append_right _ hjoins))
  · exact h.clause hclause

/-- A subquery that stands in an expression declares what the expression
does. -/
theorem Expr.Declares.of_holds (h : e.Declares name type) (hholds : e.Holds model) :
    model.Declares name type := by
  induction e using Expr.inductionOnOperands with
  | step e ih =>
      rcases holds_iff_operands.mp hholds with rfl | ⟨operand, hoperand, hholds⟩
      · exact declares_subquery.mp h
      · exact ih operand hoperand (h.operand hoperand) hholds

end

/-! ## Inlining keeps what is decided by types -/

section

variable {name : String} {value : Literal}

theorem Expr.inline_operands (e : Expr) :
    (e.inline name value).operands = e.operands.map (Expr.inline name value) := by
  cases e with
  | parameter other type =>
      rw [inline]
      split <;> rfl
  | _ => simp [inline, operands, Option.toList_map]

theorem Expr.inline_isBranching (e : Expr) :
    (e.inline name value).isBranching = e.isBranching := by
  cases e with
  | parameter other type =>
      rw [inline]
      split <;> rfl
  | _ => rfl

/-- No scalar is the null constant. -/
theorem Expr.inline_isNullConstant (hscalar : value.isScalar = true) (e : Expr) :
    (e.inline name value).isNullConstant = e.isNullConstant := by
  cases e with
  | parameter other type =>
      rw [inline]
      split
      · cases value with
        | null => cases hscalar
        | _ => rfl
      · rfl
  | _ => rfl

private theorem ResultOperator.inline_isScalar (operator : ResultOperator) :
    (operator.inline name value).isScalar = operator.isScalar := by
  cases operator <;> rfl

/-- Operators with a parameter inlined reduce to the same type. -/
theorem reducedType_inline (element : StaticType) (operators : List ResultOperator) :
    reducedType element ((operators.map (ResultOperator.inline name value)).reverse.find?
        ResultOperator.isScalar) =
      reducedType element (operators.reverse.find? ResultOperator.isScalar) := by
  have hfind : ∀ operators : List ResultOperator,
      (operators.map (ResultOperator.inline name value)).find? ResultOperator.isScalar =
        (operators.find? ResultOperator.isScalar).map (ResultOperator.inline name value) := by
    intro operators
    rw [List.find?_map]
    congr 2
    funext operator
    exact operator.inline_isScalar
  rw [← List.map_reverse, hfind]
  cases operators.reverse.find? ResultOperator.isScalar with
  | none => rfl
  | some operator => cases operator <;> rfl

mutual

/-- Where the parameter is declared with the type of the literal, inlining
keeps the type. -/
theorem Expr.inline_type : ∀ {e : Expr}, e.Declares name value.type →
    (e.inline name value).type = e.type
  | .constant literal, _ => rfl
  | .parameter other type, h => by
      rw [Expr.inline]
      split
      · next hname =>
          subst hname
          exact (h type .parameter).symm
      · rfl
  | .unary operator operand type, h => by
      have hoperand : (operand.inline name value).type = operand.type :=
        Expr.inline_type (h.operand (by simp [Expr.operands]))
      cases operator with
      | negate => exact hoperand
      | _ => rfl
  | .binary operator left right, h => by
      have hleft : (left.inline name value).type = left.type :=
        Expr.inline_type (h.operand (by simp [Expr.operands]))
      rw [Expr.inline, Expr.type, Expr.type, hleft]
  | .member target property type, _ => rfl
  | .call method target arguments type, _ => rfl
  | .conditional test (some a) whenFalse, h => by
      have ha : (a.inline name value).type = a.type :=
        Expr.inline_type (h.operand (by simp [Expr.operands]))
      exact ha
  | .conditional test none (some b), h => by
      have hb : (b.inline name value).type = b.type :=
        Expr.inline_type (h.operand (by simp [Expr.operands]))
      exact hb
  | .conditional test none none, _ => rfl
  | .coalesce (some a) right, h => by
      have ha : (a.inline name value).type = a.type :=
        Expr.inline_type (h.operand (by simp [Expr.operands]))
      exact congrArg StaticType.nonNull ha
  | .coalesce none (some b), h => by
      have hb : (b.inline name value).type = b.type :=
        Expr.inline_type (h.operand (by simp [Expr.operands]))
      exact congrArg StaticType.nonNull hb
  | .coalesce none none, _ => rfl
  | .source item type, _ => rfl
  | .subquery model, h => QueryModel.inline_resultType (Expr.declares_subquery.mp h)

theorem QueryModel.inline_resultType : ∀ {model : QueryModel}, model.Declares name value.type →
    (model.inline name value).resultType = model.resultType
  | ⟨_, _, _, _, _, _, _, none, operators⟩, _ => by
      rw [QueryModel.inline]
      simp only [QueryModel.resultType, inlineOption, inlineOperators_eq, reducedType_inline]
  | ⟨_, _, _, _, _, _, _, some e, operators⟩, h => by
      have he : (e.inline name value).type = e.type :=
        Expr.inline_type (h.clause (by simp [QueryModel.clauseExpressions]))
      rw [QueryModel.inline]
      simp only [QueryModel.resultType, inlineOption, inlineOperators_eq, reducedType_inline, he]

end

theorem Expr.inline_isExpandable {e : Expr} (h : e.Declares name value.type) :
    (e.inline name value).isExpandable = e.isExpandable := by
  unfold isExpandable
  rw [inline_isBranching, inline_type h]

theorem Expr.inline_fitsBeside (hscalar : value.isScalar = true) {a b : Expr}
    (ha : a.Declares name value.type) (hb : b.Declares name value.type) :
    (a.inline name value).fitsBeside (b.inline name value) = a.fitsBeside b := by
  unfold fitsBeside
  rw [inline_isNullConstant hscalar, inline_isNullConstant hscalar, inline_type ha,
    inline_type hb]

/-- Inlining changes nothing about the branches of a node. -/
theorem Expr.inline_checkBranches (hscalar : value.isScalar = true) {e : Expr}
    (h : e.Declares name value.type) :
    (e.inline name value).checkBranches = e.checkBranches := by
  have hcheck : ∀ {leftSide rightSide : BranchSide} {left right : Option Expr},
      (∀ a, left = some a → a ∈ e.operands) → (∀ b, right = some b → b ∈ e.operands) →
      ObjectQuery.checkBranches leftSide rightSide (left.map (Expr.inline name value))
          (right.map (Expr.inline name value)) =
        ObjectQuery.checkBranches leftSide rightSide left right := by
    intro leftSide rightSide left right hleft hright
    cases left with
    | none => rfl
    | some a =>
        cases right with
        | none => rfl
        | some b =>
            have ha := h.operand (hleft a rfl)
            have hb := h.operand (hright b rfl)
            show checkFit _ _ = checkFit a b
            unfold checkFit
            rw [inline_fitsBeside hscalar ha hb, inline_type ha, inline_type hb]
  cases e with
  | parameter other type =>
      rw [inline]
      split <;> rfl
  | conditional test whenTrue whenFalse =>
      rw [inline, inlineOption_eq, inlineOption_eq]
      apply hcheck
      · intro a ha
        simp [operands, ha]
      · intro b hb
        simp [operands, hb]
  | coalesce left right =>
      rw [inline, inlineOption_eq, inlineOption_eq]
      apply hcheck
      · intro a ha
        simp [operands, ha]
      · intro b hb
        simp [operands, hb]
  | _ => rfl

/-- An expression is sound exactly if it is with a parameter inlined. -/
theorem Expr.inline_isSound_iff (hscalar : value.isScalar = true) {e : Expr}
    (h : e.Declares name value.type) : (e.inline name value).IsSound ↔ e.IsSound := by
  induction e using Expr.inductionOnOperands with
  | step e ih =>
      rw [isSound_iff_operands, isSound_iff_operands, inline_checkBranches hscalar h,
        inline_operands, List.forall_mem_map]
      have hoperands : (∀ operand ∈ e.operands, (operand.inline name value).IsSound) ↔
          ∀ operand ∈ e.operands, operand.IsSound :=
        forall₂_congr fun operand hoperand => ih operand hoperand (h.operand hoperand)
      rw [hoperands]

/-! ## What stands in an expression -/

/-- The subqueries in an expression with a parameter inlined are those in the
expression. -/
theorem Expr.inline_holds_iff {e : Expr} {model : QueryModel} :
    (e.inline name value).Holds model ↔
      ∃ nested : QueryModel, e.Holds nested ∧ model = nested.inline name value := by
  have hsubquery : ∀ {e : Expr}, e.inline name value = .subquery model ↔
      ∃ nested, e = .subquery nested ∧ model = nested.inline name value := by
    intro e
    cases e with
    | parameter other type =>
        rw [inline]
        split <;> simp
    | subquery nested => simp [inline, eq_comm]
    | _ => simp [inline]
  induction e using Expr.inductionOnOperands with
  | step e ih =>
      rw [holds_iff_operands, hsubquery, inline_operands]
      constructor
      · rintro (⟨nested, he, hmodel⟩ | ⟨operand', hoperand', hholds⟩)
        · exact ⟨nested, holds_iff_operands.mpr (.inl he), hmodel⟩
        · obtain ⟨operand, hoperand, rfl⟩ := List.mem_map.mp hoperand'
          obtain ⟨nested, hnested, hmodel⟩ := (ih operand hoperand).mp hholds
          exact ⟨nested, holds_iff_operands.mpr (.inr ⟨operand, hoperand, hnested⟩), hmodel⟩
      · intro h
        obtain ⟨nested, hholds, hmodel⟩ := h
        rcases holds_iff_operands.mp hholds with he | ⟨operand, hoperand, hnested⟩
        · exact .inl ⟨nested, he, hmodel⟩
        · exact .inr ⟨_, List.mem_map_of_mem hoperand,
            (ih operand hoperand).mpr ⟨nested, hnested, hmodel⟩⟩

/-- Inlining leaves no occurrence of the parameter. The induction is on where an
occurrence would be. -/
theorem Expr.inline_not_mentions (e : Expr) (type : StaticType) :
    ¬(e.inline name value).Mentions name type := by
  intro h
  generalize he' : e.inline name value = e' at h
  induction h generalizing e with
  | parameter =>
      cases e with
      | parameter other t =>
          rw [inline] at he'
          split at he'
          · cases he'
          · next hother =>
              cases he'
              exact hother rfl
      | _ => simp [inline] at he'
  | operand hoperand _ ih =>
      rw [← he', inline_operands] at hoperand
      obtain ⟨operand, -, hoperand⟩ := List.mem_map.mp hoperand
      exact ih operand hoperand
  | subquery hmodel _ ih =>
      have hholds : (e.inline name value).Holds _ := holds_iff_operands.mpr (.inl he')
      obtain ⟨nested, -, rfl⟩ := inline_holds_iff.mp hholds
      rw [QueryModel.expressions, QueryModel.inline_sourceExpressions,
        QueryModel.inline_clauseExpressions, ← List.map_append] at hmodel
      obtain ⟨inner, -, hinner⟩ := List.mem_map.mp hmodel
      exact ih inner hinner

/-- A walk makes the same stops. -/
theorem Expr.inline_visits (e : Expr) :
    (e.inline name value).visits = e.visits.map (Expr.inline name value) := by
  have hlist : ∀ {es : List Expr},
      (∀ e ∈ es, (e.inline name value).visits = e.visits.map (Expr.inline name value)) →
      listVisits (es.map (Expr.inline name value)) =
        (listVisits es).map (Expr.inline name value) := by
    intro es h
    induction es with
    | nil => rfl
    | cons e rest ih =>
        rw [List.map_cons, listVisits, listVisits, List.map_append, h e (by simp),
          ih fun e he => h e (List.mem_cons_of_mem _ he)]
  have hoption : ∀ {o : Option Expr},
      (∀ e, o = some e →
        (e.inline name value).visits = e.visits.map (Expr.inline name value)) →
      optionVisits (o.map (Expr.inline name value)) =
        (optionVisits o).map (Expr.inline name value) := by
    intro o h
    cases o with
    | none => rfl
    | some e => exact h e rfl
  induction e using Expr.operandInduction with
  | parameter other type =>
      rw [inline]
      split
      · next hname => simp [visits, inline, hname]
      · next hname => simp [visits, inline, hname]
  | unary operator operand type ih => exact ih
  | binary operator left right ihLeft ihRight =>
      rw [inline, visits, visits, List.map_append, ihLeft, ihRight]
  | member target property type ih => exact ih
  | call method target arguments type ihTarget ihArguments =>
      rw [inline, visits, visits, List.map_cons, List.map_append, inlineOption_eq, inlineList_eq,
        hoption ihTarget, hlist ihArguments, inline, inlineOption_eq, inlineList_eq]
  | conditional test whenTrue whenFalse ihTest ihTrue ihFalse =>
      rw [inline, visits, visits, List.map_cons, List.map_append, List.map_append,
        inlineOption_eq, inlineOption_eq, ihTest, hoption ihTrue, hoption ihFalse, inline,
        inlineOption_eq, inlineOption_eq]
  | coalesce left right ihLeft ihRight =>
      rw [inline, visits, visits, List.map_cons, List.map_append, inlineOption_eq,
        inlineOption_eq, hoption ihLeft, hoption ihRight, inline, inlineOption_eq,
        inlineOption_eq]
  | _ => rfl

end

end ObjectQuery
