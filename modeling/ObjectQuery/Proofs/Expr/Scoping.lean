import ObjectQuery.Proofs.Expr.Walk

/-!
# Sources that are in scope

An expression refers to the items of sources by name. In a well-scoped model
every such reference names an item that is bound where the reference is
evaluated. The main source, the numbers of rows to skip and to take and an item
whose presence is tested see only what is around the model. The sequence of a
join sees the main item and those of earlier joins as well, its keys moreover
its own item, and every other clause sees all items of the model. A subquery
sees what the expression around it sees.

## Main definitions

* `Expr.WellScoped`, `QueryModel.WellScoped` — every reference names an item that
  is bound; it can be decided whether this is so.

## Main results

* `Expr.wellScoped_iff` — an expression is well scoped if its parts are.
-/

namespace ObjectQuery

mutual

/-- Whether every reference in the expression names an item that is bound, or
that the subqueries around the reference bind. -/
def Expr.WellScoped (bound : List String) : Expr → Prop
  | .constant _ | .parameter _ _ => True
  | .source name _ => name ∈ bound
  | .unary _ operand _ | .member operand _ _ => operand.WellScoped bound
  | .binary _ left right => left.WellScoped bound ∧ right.WellScoped bound
  | .call _ target arguments _ =>
    optionWellScoped bound target ∧ listWellScoped bound arguments
  | .conditional test whenTrue whenFalse =>
    test.WellScoped bound ∧ optionWellScoped bound whenTrue ∧ optionWellScoped bound whenFalse
  | .coalesce left right => optionWellScoped bound left ∧ optionWellScoped bound right
  | .subquery model => model.WellScoped bound

/-- An expression that is well scoped, if it is there. -/
def optionWellScoped (bound : List String) : Option Expr → Prop
  | none => True
  | some e => e.WellScoped bound

/-- Several expressions that are well scoped. -/
def listWellScoped (bound : List String) : List Expr → Prop
  | [] => True
  | e :: rest => e.WellScoped bound ∧ listWellScoped bound rest

/-- Joins, each of which sees the items of those before it, and its keys also
its own. -/
def joinsWellScoped (bound : List String) : List JoinClause → Prop
  | [] => True
  | ⟨item, _, sequence, outerKey, innerKey⟩ :: rest =>
    sequence.WellScoped bound ∧ outerKey.WellScoped (item :: bound) ∧
      innerKey.WellScoped (item :: bound) ∧ joinsWellScoped (item :: bound) rest

/-- Orderings whose keys are well scoped. -/
def orderingsWellScoped (bound : List String) : List OrderClause → Prop
  | [] => True
  | ⟨key, _⟩ :: rest => key.WellScoped bound ∧ orderingsWellScoped bound rest

/-- Result operators, of which only a predicate on all results sees the items of
the model. -/
def operatorsWellScoped (outer bound : List String) : List ResultOperator → Prop
  | [] => True
  | .all e :: rest => e.WellScoped bound ∧ operatorsWellScoped outer bound rest
  | .take e :: rest | .skip e :: rest | .contains e :: rest =>
    e.WellScoped outer ∧ operatorsWellScoped outer bound rest
  | _ :: rest => operatorsWellScoped outer bound rest

/-- Whether every reference in the model names an item that is bound where the
reference is evaluated; `outer` is what is bound around the model. -/
def QueryModel.WellScoped (outer : List String) : QueryModel → Prop
  | ⟨item, _, source, joins, filter, having, orderings, selector, operators⟩ =>
    let bound := joins.map JoinClause.item ++ item :: outer
    optionWellScoped outer source ∧ joinsWellScoped (item :: outer) joins ∧
      optionWellScoped bound filter ∧ optionWellScoped bound having ∧
      orderingsWellScoped bound orderings ∧ optionWellScoped bound selector ∧
      operatorsWellScoped outer bound operators

end

/-! ## Checking scopes -/

mutual

/-- Decides whether an expression is well scoped. -/
def Expr.decideWellScoped (bound : List String) : (e : Expr) → Decidable (e.WellScoped bound)
  | .constant _ | .parameter _ _ => isTrue trivial
  | .source name _ => inferInstanceAs (Decidable (name ∈ bound))
  | .unary _ operand _ | .member operand _ _ => operand.decideWellScoped bound
  | .binary _ left right =>
    @instDecidableAnd _ _ (left.decideWellScoped bound) (right.decideWellScoped bound)
  | .call _ target arguments _ =>
    @instDecidableAnd _ _ (decideOptionWellScoped bound target)
      (decideListWellScoped bound arguments)
  | .conditional test whenTrue whenFalse =>
    @instDecidableAnd _ _ (test.decideWellScoped bound)
      (@instDecidableAnd _ _ (decideOptionWellScoped bound whenTrue)
        (decideOptionWellScoped bound whenFalse))
  | .coalesce left right =>
    @instDecidableAnd _ _ (decideOptionWellScoped bound left) (decideOptionWellScoped bound right)
  | .subquery model => model.decideWellScoped bound

/-- Decides whether an expression that may be absent is well scoped. -/
def decideOptionWellScoped (bound : List String) :
    (o : Option Expr) → Decidable (optionWellScoped bound o)
  | none => isTrue trivial
  | some e => e.decideWellScoped bound

/-- Decides whether several expressions are well scoped. -/
def decideListWellScoped (bound : List String) :
    (es : List Expr) → Decidable (listWellScoped bound es)
  | [] => isTrue trivial
  | e :: rest => @instDecidableAnd _ _ (e.decideWellScoped bound) (decideListWellScoped bound rest)

/-- Decides whether joins are well scoped. -/
def decideJoinsWellScoped (bound : List String) :
    (joins : List JoinClause) → Decidable (joinsWellScoped bound joins)
  | [] => isTrue trivial
  | ⟨item, _, sequence, outerKey, innerKey⟩ :: rest =>
    @instDecidableAnd _ _ (sequence.decideWellScoped bound)
      (@instDecidableAnd _ _ (outerKey.decideWellScoped (item :: bound))
        (@instDecidableAnd _ _ (innerKey.decideWellScoped (item :: bound))
          (decideJoinsWellScoped (item :: bound) rest)))

/-- Decides whether orderings are well scoped. -/
def decideOrderingsWellScoped (bound : List String) :
    (orderings : List OrderClause) → Decidable (orderingsWellScoped bound orderings)
  | [] => isTrue trivial
  | ⟨key, _⟩ :: rest =>
    @instDecidableAnd _ _ (key.decideWellScoped bound) (decideOrderingsWellScoped bound rest)

/-- Decides whether result operators are well scoped. -/
def decideOperatorsWellScoped (outer bound : List String) :
    (operators : List ResultOperator) → Decidable (operatorsWellScoped outer bound operators)
  | [] => isTrue trivial
  | .all e :: rest =>
    @instDecidableAnd _ _ (e.decideWellScoped bound) (decideOperatorsWellScoped outer bound rest)
  | .take e :: rest | .skip e :: rest | .contains e :: rest =>
    @instDecidableAnd _ _ (e.decideWellScoped outer) (decideOperatorsWellScoped outer bound rest)
  | .count :: rest | .longCount :: rest | .any :: rest | .first :: rest | .single :: rest
  | .distinct :: rest | .sum :: rest | .min :: rest | .max :: rest | .average :: rest =>
    decideOperatorsWellScoped outer bound rest

/-- Decides whether a model is well scoped. -/
def QueryModel.decideWellScoped (outer : List String) :
    (model : QueryModel) → Decidable (model.WellScoped outer)
  | ⟨item, _, source, joins, filter, having, orderings, selector, operators⟩ =>
    let bound := joins.map JoinClause.item ++ item :: outer
    @instDecidableAnd _ _ (decideOptionWellScoped outer source)
      (@instDecidableAnd _ _ (decideJoinsWellScoped (item :: outer) joins)
        (@instDecidableAnd _ _ (decideOptionWellScoped bound filter)
          (@instDecidableAnd _ _ (decideOptionWellScoped bound having)
            (@instDecidableAnd _ _ (decideOrderingsWellScoped bound orderings)
              (@instDecidableAnd _ _ (decideOptionWellScoped bound selector)
                (decideOperatorsWellScoped outer bound operators))))))

end

instance (outer : List String) (model : QueryModel) : Decidable (model.WellScoped outer) :=
  model.decideWellScoped outer

/-! ## Expressions -/

variable {bound outer : List String}

private theorem optionWellScoped_iff {o : Option Expr} :
    optionWellScoped bound o ↔ ∀ e ∈ o.toList, e.WellScoped bound := by
  cases o <;> simp [optionWellScoped]

private theorem listWellScoped_iff {es : List Expr} :
    listWellScoped bound es ↔ ∀ e ∈ es, e.WellScoped bound := by
  induction es with
  | nil => simp [listWellScoped]
  | cons e rest ih => rw [listWellScoped, ih, List.forall_mem_cons]

theorem orderingsWellScoped_iff {orderings : List OrderClause} :
    orderingsWellScoped bound orderings ↔ ∀ o ∈ orderings, o.key.WellScoped bound := by
  induction orderings with
  | nil => simp [orderingsWellScoped]
  | cons o rest ih =>
      obtain ⟨key, direction⟩ := o
      rw [orderingsWellScoped, ih, List.forall_mem_cons]

/-- An expression is well scoped exactly if the item that it refers to is bound,
its operands are well scoped and so is the model of a subquery. -/
theorem Expr.wellScoped_iff {e : Expr} :
    e.WellScoped bound ↔ (∀ name type, e = .source name type → name ∈ bound) ∧
      (∀ operand ∈ e.operands, operand.WellScoped bound) ∧
        ∀ model, e = .subquery model → model.WellScoped bound := by
  cases e <;>
    simp [WellScoped, operands, optionWellScoped_iff, listWellScoped_iff, or_imp, forall_and]

theorem Expr.WellScoped.operand {e operand : Expr} (h : e.WellScoped bound)
    (hoperand : operand ∈ e.operands) : operand.WellScoped bound :=
  (wellScoped_iff.mp h).2.1 operand hoperand

/-! ## Result operators -/

/-- The names that the operand of a result operator may use. -/
def ResultOperator.scope (outer bound : List String) : ResultOperator → List String
  | .all _ => bound
  | _ => outer

theorem operatorsWellScoped_iff {operators : List ResultOperator} :
    operatorsWellScoped outer bound operators ↔ ∀ operator ∈ operators, ∀ e,
      operator.operand? = some e → e.WellScoped (operator.scope outer bound) := by
  induction operators with
  | nil => simp [operatorsWellScoped]
  | cons operator rest ih =>
      rw [List.forall_mem_cons]
      cases operator <;>
        simp [operatorsWellScoped, ih, ResultOperator.operand?, ResultOperator.scope]

/-! ## Models -/

namespace QueryModel

variable {model : QueryModel}

/-- The names that the clauses of a model may use. -/
def scope (model : QueryModel) (outer : List String) : List String :=
  model.joins.map JoinClause.item ++ model.item :: outer

/-- The clauses of a model one by one. -/
theorem wellScoped_iff : model.WellScoped outer ↔
    optionWellScoped outer model.source ∧ joinsWellScoped (model.item :: outer) model.joins ∧
      optionWellScoped (model.scope outer) model.filter ∧
      optionWellScoped (model.scope outer) model.having ∧
      orderingsWellScoped (model.scope outer) model.orderings ∧
      optionWellScoped (model.scope outer) model.selector ∧
      operatorsWellScoped outer (model.scope outer) model.operators := by
  cases model
  exact Iff.rfl

theorem WellScoped.source (h : model.WellScoped outer) {source : Expr}
    (hsource : model.source = some source) : source.WellScoped outer := by
  have hscoped := (wellScoped_iff.mp h).1
  rw [hsource] at hscoped
  exact hscoped

/-- A model may read from any source that is well scoped outside of it. -/
theorem WellScoped.withSource (h : model.WellScoped outer) {source : Expr}
    (hsource : source.WellScoped outer) : (model.withSource source).WellScoped outer :=
  wellScoped_iff.mpr ⟨hsource, (wellScoped_iff.mp h).2⟩

end QueryModel

end ObjectQuery
