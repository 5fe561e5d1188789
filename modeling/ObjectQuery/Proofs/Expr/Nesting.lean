import ObjectQuery.Proofs.Inline.Expr

/-!
# How deep subqueries nest

A node may stand anywhere in a model: in a source, a join or a clause, in a
test or an operand, and in the models of subqueries. `QueryModel.ContainsAt`
says so and counts the subqueries around the node; the deepest nesting of
subqueries is a number, `QueryModel.nesting`, and both say the same.

## Main definitions

* `Expr.ContainsAt`, `QueryModel.ContainsAt` — a node stands so deep.
* `Expr.nesting`, `QueryModel.nesting` — how deep subqueries nest.

## Main results

* `QueryModel.nesting_le_iff_containsAt` — the nesting is that of the deepest
  subquery.
* `Expr.Holds.nesting_lt` — a subquery nests less deep than what holds it.
* `Expr.nestedInduction` — induction that goes into subqueries.
-/

namespace ObjectQuery

/-! ## Nodes anywhere -/

/-- The node stands in the expression, inside of so many subqueries. -/
inductive Expr.ContainsAt : (depth : Nat) → (e node : Expr) → Prop
  | self {e : Expr} : ContainsAt 0 e e
  | operand {depth : Nat} {e operand node : Expr} : operand ∈ e.operands →
    ContainsAt depth operand node → ContainsAt depth e node
  | subquery {depth : Nat} {model : QueryModel} {e node : Expr} : e ∈ model.expressions →
    ContainsAt depth e node → ContainsAt (depth + 1) (.subquery model) node

/-- The node stands in the model, inside of so many subqueries. -/
def QueryModel.ContainsAt (depth : Nat) (model : QueryModel) (node : Expr) : Prop :=
  ∃ e ∈ model.expressions, e.ContainsAt depth node

section

variable {model : QueryModel} {depth : Nat} {e node : Expr}

/-- What stands in an expression is the expression itself, or stands in an
operand, or in the model of a subquery. -/
theorem Expr.containsAt_iff : e.ContainsAt depth node ↔
    (depth = 0 ∧ node = e) ∨ (∃ operand ∈ e.operands, operand.ContainsAt depth node) ∨
      ∃ model deep, e = .subquery model ∧ depth = deep + 1 ∧ model.ContainsAt deep node := by
  constructor
  · intro h
    cases h with
    | self => exact .inl ⟨rfl, rfl⟩
    | operand hoperand h => exact .inr (.inl ⟨_, hoperand, h⟩)
    | subquery he h => exact .inr (.inr ⟨_, _, rfl, rfl, _, he, h⟩)
  · rintro (⟨rfl, rfl⟩ | ⟨operand, hoperand, h⟩ | ⟨model, deep, rfl, rfl, e, he, h⟩)
    · exact .self
    · exact .operand hoperand h
    · exact .subquery he h

end

/-! ## Nesting -/

mutual

/-- How deep subqueries nest in the expression. -/
def Expr.nesting : Expr → Nat
  | .constant _ | .parameter _ _ | .source _ _ => 0
  | .unary _ operand _ => operand.nesting
  | .binary _ left right => max left.nesting right.nesting
  | .member target _ _ => target.nesting
  | .call _ target arguments _ => max (optionNesting target) (listNesting arguments)
  | .conditional test whenTrue whenFalse =>
    max test.nesting (max (optionNesting whenTrue) (optionNesting whenFalse))
  | .coalesce left right => max (optionNesting left) (optionNesting right)
  | .subquery model => model.nesting + 1

/-- How deep subqueries nest in an expression that may be absent. -/
def optionNesting : Option Expr → Nat
  | none => 0
  | some e => e.nesting

/-- How deep subqueries nest in several expressions. -/
def listNesting : List Expr → Nat
  | [] => 0
  | e :: rest => max e.nesting (listNesting rest)

/-- How deep subqueries nest in joins. -/
def joinsNesting : List JoinClause → Nat
  | [] => 0
  | ⟨_, _, sequence, outerKey, innerKey⟩ :: rest =>
    max (max sequence.nesting (max outerKey.nesting innerKey.nesting)) (joinsNesting rest)

/-- How deep subqueries nest in orderings. -/
def orderingsNesting : List OrderClause → Nat
  | [] => 0
  | ⟨key, _⟩ :: rest => max key.nesting (orderingsNesting rest)

/-- How deep subqueries nest in result operators. -/
def operatorsNesting : List ResultOperator → Nat
  | [] => 0
  | .all e :: rest | .take e :: rest | .skip e :: rest | .contains e :: rest =>
    max e.nesting (operatorsNesting rest)
  | _ :: rest => operatorsNesting rest

/-- How deep subqueries nest in the model. -/
def QueryModel.nesting : QueryModel → Nat
  | ⟨_, _, source, joins, filter, having, orderings, selector, operators⟩ =>
    max (max (optionNesting source) (joinsNesting joins))
      (max (max (optionNesting selector) (orderingsNesting orderings))
        (max (operatorsNesting operators) (max (optionNesting filter) (optionNesting having))))

end

section

variable {n : Nat}

private theorem optionNesting_le_iff {o : Option Expr} :
    optionNesting o ≤ n ↔ ∀ e ∈ o.toList, e.nesting ≤ n := by
  cases o <;> simp [optionNesting]

private theorem listNesting_le_iff {es : List Expr} :
    listNesting es ≤ n ↔ ∀ e ∈ es, e.nesting ≤ n := by
  induction es with
  | nil => simp [listNesting]
  | cons e rest ih => rw [listNesting, Nat.max_le, ih, List.forall_mem_cons]

private theorem joinsNesting_le_iff {joins : List JoinClause} :
    joinsNesting joins ≤ n ↔
      ∀ e ∈ joins.flatMap fun j => [j.sequence, j.outerKey, j.innerKey], e.nesting ≤ n := by
  induction joins with
  | nil => simp [joinsNesting]
  | cons j rest ih =>
      obtain ⟨item, itemType, sequence, outerKey, innerKey⟩ := j
      simp only [joinsNesting, Nat.max_le, ih, List.flatMap_cons, List.forall_mem_append,
        List.forall_mem_cons, List.not_mem_nil, false_imp_iff, implies_true, and_true]

private theorem orderingsNesting_le_iff {orderings : List OrderClause} :
    orderingsNesting orderings ≤ n ↔ ∀ e ∈ orderings.map OrderClause.key, e.nesting ≤ n := by
  induction orderings with
  | nil => simp [orderingsNesting]
  | cons o rest ih =>
      obtain ⟨key, direction⟩ := o
      rw [orderingsNesting, Nat.max_le, ih, List.map_cons, List.forall_mem_cons]

private theorem operatorsNesting_le_iff {operators : List ResultOperator} :
    operatorsNesting operators ≤ n ↔
      ∀ e ∈ operators.filterMap ResultOperator.operand?, e.nesting ≤ n := by
  induction operators with
  | nil => simp [operatorsNesting]
  | cons operator rest ih =>
      cases operator <;>
        simp only [operatorsNesting, Nat.max_le, ih, List.filterMap_cons,
          ResultOperator.operand?, List.forall_mem_cons]

/-- Subqueries nest in a model as deep as in its expressions. -/
theorem QueryModel.nesting_le_iff {model : QueryModel} :
    model.nesting ≤ n ↔ ∀ e ∈ model.expressions, e.nesting ≤ n := by
  obtain ⟨item, itemType, source, joins, filter, having, orderings, selector, operators⟩ := model
  simp only [nesting, Nat.max_le, optionNesting_le_iff, joinsNesting_le_iff,
    orderingsNesting_le_iff, operatorsNesting_le_iff, expressions, sourceExpressions,
    clauseExpressions, List.forall_mem_append, and_assoc]

theorem QueryModel.nesting_le_of_mem {model : QueryModel} {e : Expr}
    (he : e ∈ model.expressions) : e.nesting ≤ model.nesting :=
  nesting_le_iff.mp (Nat.le_refl _) e he

private theorem QueryModel.exists_mem_of_lt_nesting {model : QueryModel} (h : n < model.nesting) :
    ∃ e ∈ model.expressions, n < e.nesting := by
  have hdeep := mt nesting_le_iff.mpr (Nat.not_le_of_lt h)
  simpa only [Classical.not_forall, Nat.not_le, exists_prop] using hdeep

namespace Expr

/-- Subqueries nest in an expression that is none as deep as in its operands. -/
theorem nesting_le_iff_operands {e : Expr} (hsubquery : ∀ model, e ≠ .subquery model) :
    e.nesting ≤ n ↔ ∀ operand ∈ e.operands, operand.nesting ≤ n := by
  cases e with
  | subquery model => exact absurd rfl (hsubquery model)
  | _ =>
      simp only [nesting, operands, Nat.max_le, optionNesting_le_iff, listNesting_le_iff,
        List.forall_mem_append, List.forall_mem_cons, List.not_mem_nil, false_imp_iff,
        implies_true, Nat.zero_le, and_true]

private theorem exists_operand_of_lt_nesting {e : Expr} (hsubquery : ∀ model, e ≠ .subquery model)
    (h : n < e.nesting) : ∃ operand ∈ e.operands, n < operand.nesting := by
  have hdeep := mt (nesting_le_iff_operands hsubquery).mpr (Nat.not_le_of_lt h)
  simpa only [Classical.not_forall, Nat.not_le, exists_prop] using hdeep

theorem nesting_le_of_mem_operands {e operand : Expr} (h : operand ∈ e.operands) :
    operand.nesting ≤ e.nesting := by
  refine (nesting_le_iff_operands ?_).mp (Nat.le_refl _) operand h
  rintro model rfl
  cases h

/-- What stands deep in an expression makes it nest as deep. -/
theorem ContainsAt.nesting_le {depth : Nat} {e node : Expr} (h : e.ContainsAt depth node) :
    depth + node.nesting ≤ e.nesting := by
  induction h with
  | self => exact Nat.le_of_eq (Nat.zero_add _)
  | operand hoperand _ ih => exact Nat.le_trans ih (nesting_le_of_mem_operands hoperand)
  | subquery he _ ih =>
      have hmodel := QueryModel.nesting_le_of_mem he
      rw [nesting]
      omega

/-- A subquery nests less deep than an expression that holds it. -/
theorem Holds.nesting_lt {e : Expr} {nested : QueryModel} (h : e.Holds nested) :
    nested.nesting < e.nesting := by
  induction e using inductionOnOperands with
  | step e ih =>
      rcases holds_iff_operands.mp h with rfl | ⟨operand, hoperand, hholds⟩
      · exact Nat.lt_succ_self _
      · exact Nat.lt_of_lt_of_le (ih operand hoperand hholds) (nesting_le_of_mem_operands hoperand)

/-- Induction on the operands of an expression and on the expressions of its
subqueries. -/
@[elab_as_elim]
theorem nestedInduction {motive : Expr → Prop}
    (step : ∀ e, (∀ operand ∈ Expr.operands e, motive operand) →
      (∀ model, e = .subquery model → ∀ inner ∈ QueryModel.expressions model, motive inner) →
        motive e) (e : Expr) : motive e := by
  suffices h : ∀ n, ∀ e : Expr, e.nesting ≤ n → motive e from h e.nesting e (Nat.le_refl _)
  intro n
  induction n using Nat.strongRecOn with
  | ind n ih =>
      intro e hle
      induction e using inductionOnOperands with
      | step e ihOperands =>
          refine step e (fun operand hoperand => ?_) (fun model hmodel inner hinner => ?_)
          · exact ihOperands operand hoperand
              (Nat.le_trans (nesting_le_of_mem_operands hoperand) hle)
          · subst hmodel
            have hless : inner.nesting < n :=
              Nat.lt_of_le_of_lt (QueryModel.nesting_le_of_mem hinner) hle
            exact ih inner.nesting hless inner (Nat.le_refl _)

/-- Where subqueries nest deeper than `n`, one stands `n` deep. -/
theorem exists_containsAt_of_lt_nesting {e : Expr} (h : n < e.nesting) :
    ∃ model, e.ContainsAt n (.subquery model) := by
  induction e using nestedInduction generalizing n with
  | step e ihOperands ihNested =>
      by_cases hsubquery : ∃ model, e = .subquery model
      · obtain ⟨outer, rfl⟩ := hsubquery
        cases n with
        | zero => exact ⟨outer, .self⟩
        | succ n =>
            obtain ⟨inner, hinner, hdeep⟩ :=
              QueryModel.exists_mem_of_lt_nesting (Nat.lt_of_succ_lt_succ h)
            obtain ⟨model, hmodel⟩ := ihNested outer rfl inner hinner hdeep
            exact ⟨model, .subquery hinner hmodel⟩
      · obtain ⟨operand, hoperand, hdeep⟩ :=
          exists_operand_of_lt_nesting (not_exists.mp hsubquery) h
        obtain ⟨model, hmodel⟩ := ihOperands operand hoperand hdeep
        exact ⟨model, .operand hoperand hmodel⟩

end Expr

/-- The nesting of a model is that of the subqueries in it: it is bounded
exactly if each of them stands less deep. -/
theorem QueryModel.nesting_le_iff_containsAt {model : QueryModel} :
    model.nesting ≤ n ↔
      ∀ depth nested, model.ContainsAt depth (.subquery nested) → depth < n := by
  constructor
  · intro h depth nested hcontains
    obtain ⟨e, he, hcontains⟩ := hcontains
    have hdeep := hcontains.nesting_le
    have hle := nesting_le_of_mem he
    rw [Expr.nesting] at hdeep
    omega
  · intro h
    rw [nesting_le_iff]
    intro e he
    by_contra hdeep
    obtain ⟨nested, hnested⟩ := Expr.exists_containsAt_of_lt_nesting (Nat.not_le.mp hdeep)
    exact Nat.lt_irrefl n (h n nested ⟨e, he, hnested⟩)

end

end ObjectQuery
