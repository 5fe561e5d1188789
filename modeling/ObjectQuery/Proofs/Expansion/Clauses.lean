import ObjectQuery.Proofs.Expansion.Replaced

/-!
# Models with their clause expressions replaced

`QueryModel.Related` relates a model to another one that differs from it in
the clause expressions only, each of which is related to the one in its
place. This is what going through the clause expressions of a model makes of
it, whatever is done with each of them.

## Main results

* `mapClausesM_reaches_iff` — going through the clauses succeeds exactly with
  related models.
* `QueryModel.Related.clauseExpressions` — related models have related clause
  expressions.
-/

namespace ObjectQuery

open Traced (Success)

/-- The second operator is the first one with a related operand. -/
def ResultOperator.Related (R : Expr → Expr → Prop) (operator operator' : ResultOperator) :
    Prop :=
  match operator.operand? with
  | none => operator' = operator
  | some e => ∃ e', R e e' ∧ operator' = operator.withOperand e'

/-- The second model is the first one with related clause expressions. -/
structure QueryModel.Related (R : Expr → Expr → Prop) (model model' : QueryModel) : Prop where
  item : model'.item = model.item
  itemType : model'.itemType = model.itemType
  source : model'.source = model.source
  joins : model'.joins = model.joins
  filter : Option.Rel R model.filter model'.filter
  having : Option.Rel R model.having model'.having
  orderings : List.Forall₂ (fun o o' => R o.key o'.key ∧ o'.direction = o.direction)
    model.orderings model'.orderings
  selector : Option.Rel R model.selector model'.selector
  operators : List.Forall₂ (ResultOperator.Related R) model.operators model'.operators

theorem ResultOperator.operand?_withOperand {operator : ResultOperator} {e e' : Expr}
    (h : operator.operand? = some e) : (operator.withOperand e').operand? = some e' := by
  cases operator <;> first | rfl | cases h

theorem ResultOperator.withOperand_self {operator : ResultOperator} {e : Expr}
    (h : operator.operand? = some e) : operator.withOperand e = operator := by
  cases operator <;> first | (cases h; rfl) | cases h

namespace QueryModel

section

variable {ω ε : Type} {s : Success ω ε} {f : Expr → Traced ω ε Expr}

private theorem mapOptionM_reaches_iff {o o' : Option Expr} :
    s.Reaches (mapOptionM f o) o' ↔ Option.Rel (fun e e' => s.Reaches (f e) e') o o' := by
  cases o with
  | none =>
      rw [mapOptionM, s.pure_iff]
      constructor
      · rintro rfl
        exact .none
      · intro h
        cases h
        rfl
  | some e =>
      simp only [mapOptionM, s.bind_iff, s.pure_iff]
      constructor
      · rintro ⟨e', he', rfl⟩
        exact .some he'
      · intro h
        cases h with
        | some he' => exact ⟨_, he', rfl⟩

private theorem mapOrderingM_reaches_iff {o o' : OrderClause} :
    s.Reaches (mapOrderingM f o) o' ↔ s.Reaches (f o.key) o'.key ∧ o'.direction = o.direction := by
  simp only [mapOrderingM, s.bind_iff, s.pure_iff]
  constructor
  · rintro ⟨key, hkey, rfl⟩
    exact ⟨hkey, rfl⟩
  · rintro ⟨hkey, hdirection⟩
    refine ⟨o'.key, hkey, ?_⟩
    cases o'
    cases hdirection
    rfl

private theorem mapOperatorM_reaches_iff {operator operator' : ResultOperator} :
    s.Reaches (mapOperatorM f operator) operator' ↔
      operator.Related (fun e e' => s.Reaches (f e) e') operator' := by
  unfold mapOperatorM ResultOperator.Related
  cases operator.operand? with
  | none => rw [s.pure_iff, eq_comm]
  | some e =>
      simp only [s.bind_iff, s.pure_iff]
      constructor
      · rintro ⟨e', he', rfl⟩
        exact ⟨e', he', rfl⟩
      · rintro ⟨e', he', rfl⟩
        exact ⟨e', he', rfl⟩

/-- Going through the clauses of a model succeeds exactly with related
models. -/
theorem mapClausesM_reaches_iff {model model' : QueryModel} :
    s.Reaches (model.mapClausesM f) model' ↔
      model.Related (fun e e' => s.Reaches (f e) e') model' := by
  simp only [mapClausesM, s.bind_iff, s.pure_iff, mapOptionM_reaches_iff, s.mapM_iff,
    mapOrderingM_reaches_iff, mapOperatorM_reaches_iff]
  constructor
  · rintro ⟨selector, hselector, orderings, horderings, operators, hoperators, filter, hfilter,
      having, hhaving, rfl⟩
    exact ⟨rfl, rfl, rfl, rfl, hfilter, hhaving, horderings, hselector, hoperators⟩
  · rintro ⟨hitem, hitemType, hsource, hjoins, hfilter, hhaving, horderings, hselector,
      hoperators⟩
    refine ⟨_, hselector, _, horderings, _, hoperators, _, hfilter, _, hhaving, ?_⟩
    cases model'
    cases hitem
    cases hitemType
    cases hsource
    cases hjoins
    rfl

end

theorem mem_clauseExpressions {model : QueryModel} {e : Expr} :
    e ∈ model.clauseExpressions ↔
      model.selector = some e ∨ (∃ o ∈ model.orderings, o.key = e) ∨
        (∃ operator ∈ model.operators, operator.operand? = some e) ∨
        model.filter = some e ∨ model.having = some e := by
  simp [clauseExpressions, Option.mem_toList]

/-- What holds of all clause expressions, clause by clause. -/
theorem forall_clauseExpressions {model : QueryModel} {P : Expr → Prop} :
    (∀ e ∈ model.clauseExpressions, P e) ↔
      (∀ e, model.selector = some e → P e) ∧ (∀ o ∈ model.orderings, P o.key) ∧
        (∀ operator ∈ model.operators, ∀ e, operator.operand? = some e → P e) ∧
        (∀ e, model.filter = some e → P e) ∧ ∀ e, model.having = some e → P e := by
  simp only [mem_clauseExpressions, or_imp, forall_and, forall_exists_index, and_imp]
  refine and_congr_right fun _ => and_congr ?_ (and_congr_left fun _ => ?_)
  · constructor
    · intro h o ho
      exact h o.key o ho rfl
    · rintro h e o ho rfl
      exact h o ho
  · constructor
    · intro h operator hoperator e hoperand
      exact h e operator hoperator hoperand
    · intro h e operator hoperator hoperand
      exact h operator hoperator e hoperand

namespace Related

variable {R S : Expr → Expr → Prop} {model model' : QueryModel}

/-- Related models have related clause expressions. -/
theorem clauseExpressions (h : model.Related R model') :
    List.Forall₂ R model.clauseExpressions model'.clauseExpressions := by
  have hoption : ∀ {o o' : Option Expr}, Option.Rel R o o' →
      List.Forall₂ R o.toList o'.toList := by
    intro o o' hrel
    cases hrel with
    | none => exact .nil
    | some hrelated => exact .cons hrelated .nil
  have horderings : ∀ {os os' : List OrderClause},
      List.Forall₂ (fun o o' => R o.key o'.key ∧ o'.direction = o.direction) os os' →
        List.Forall₂ R (os.map OrderClause.key) (os'.map OrderClause.key) := by
    intro os os' hrel
    induction hrel with
    | nil => exact .nil
    | cons hkey _ ih => exact .cons hkey.1 ih
  have hoperators : ∀ {os os' : List ResultOperator},
      List.Forall₂ (ResultOperator.Related R) os os' →
        List.Forall₂ R (os.filterMap ResultOperator.operand?)
          (os'.filterMap ResultOperator.operand?) := by
    intro os os' hrel
    induction hrel with
    | nil => exact .nil
    | @cons o o' _ _ hrelated _ ih =>
        unfold ResultOperator.Related at hrelated
        cases hoperand : o.operand? with
        | none =>
            rw [hoperand] at hrelated
            obtain rfl : o' = o := hrelated
            rw [List.filterMap_cons_none hoperand, List.filterMap_cons_none hoperand]
            exact ih
        | some e =>
            rw [hoperand] at hrelated
            obtain ⟨e', he', rfl⟩ := hrelated
            rw [List.filterMap_cons_some hoperand,
              List.filterMap_cons_some (ResultOperator.operand?_withOperand hoperand)]
            exact .cons he' ih
  unfold QueryModel.clauseExpressions
  exact List.rel_append (List.rel_append (List.rel_append (List.rel_append
    (hoption h.selector) (horderings h.orderings)) (hoperators h.operators))
    (hoption h.filter)) (hoption h.having)

/-- A relation between models may be weakened on the clause expressions. -/
theorem mono (h : model.Related R model')
    (hRS : ∀ e ∈ model.clauseExpressions, ∀ e', R e e' → S e e') :
    model.Related S model' := by
  obtain ⟨hselector, horderings, hoperators, hfilter, hhaving⟩ := forall_clauseExpressions.mp hRS
  have hoption : ∀ {o o' : Option Expr}, (∀ e, o = some e → ∀ e', R e e' → S e e') →
      Option.Rel R o o' → Option.Rel S o o' := by
    intro o o' hclause hrel
    cases hrel with
    | none => exact .none
    | some hrelated => exact .some (hclause _ rfl _ hrelated)
  refine ⟨h.item, h.itemType, h.source, h.joins, hoption hfilter h.filter,
    hoption hhaving h.having, ?_, hoption hselector h.selector, ?_⟩
  · exact forall₂_mono h.orderings fun o ho o' hrelated =>
      ⟨horderings o ho _ hrelated.1, hrelated.2⟩
  · refine forall₂_mono h.operators fun operator hmem operator' hrelated => ?_
    unfold ResultOperator.Related at hrelated ⊢
    cases hoperand : operator.operand? with
    | none =>
        rw [hoperand] at hrelated
        exact hrelated
    | some e =>
        rw [hoperand] at hrelated
        obtain ⟨e', he', hoperator'⟩ := hrelated
        exact ⟨e', hoperators operator hmem e hoperand e' he', hoperator'⟩

/-- Where related expressions are equal, so are related models. -/
theorem eq_of_forall (h : model.Related R model') (hR : ∀ e e', R e e' → e' = e) :
    model' = model := by
  have hoption : ∀ {o o' : Option Expr}, Option.Rel R o o' → o' = o := by
    intro o o' hrel
    cases hrel with
    | none => rfl
    | some hrelated => rw [hR _ _ hrelated]
  have horderings : List.Forall₂ Eq model.orderings model'.orderings := by
    refine forall₂_mono h.orderings fun o _ o' hrelated => ?_
    obtain ⟨key, direction⟩ := o
    obtain ⟨key', direction'⟩ := o'
    obtain rfl : key' = key := hR _ _ hrelated.1
    obtain rfl : direction' = direction := hrelated.2
    rfl
  have hoperators : List.Forall₂ Eq model.operators model'.operators := by
    refine forall₂_mono h.operators fun operator _ operator' hrelated => ?_
    unfold ResultOperator.Related at hrelated
    cases hoperand : operator.operand? with
    | none =>
        rw [hoperand] at hrelated
        exact hrelated.symm
    | some e =>
        rw [hoperand] at hrelated
        obtain ⟨e', he', rfl⟩ := hrelated
        rw [hR e e' he', ResultOperator.withOperand_self hoperand]
  rw [List.forall₂_eq_eq_eq] at horderings hoperators
  have hitem := h.item
  have hitemType := h.itemType
  have hsource := h.source
  have hjoins := h.joins
  have hfilter := hoption h.filter
  have hhaving := hoption h.having
  have hselector := hoption h.selector
  cases model
  cases model'
  simp only at *
  simp only [hitem, hitemType, hsource, hjoins, hfilter, hhaving, horderings, hselector,
    hoperators]

/-- Where each clause expression is related to something, the model is. -/
theorem exists_of_clauseExpressions (h : ∀ e ∈ model.clauseExpressions, ∃ e', R e e') :
    ∃ model', model.Related R model' := by
  obtain ⟨hselector, horderings, hoperators, hfilter, hhaving⟩ := forall_clauseExpressions.mp h
  have hoption : ∀ {o : Option Expr}, (∀ e, o = some e → ∃ e', R e e') →
      ∃ o', Option.Rel R o o' := by
    intro o hclause
    cases o with
    | none => exact ⟨none, .none⟩
    | some e =>
        obtain ⟨e', he'⟩ := hclause e rfl
        exact ⟨some e', .some he'⟩
  obtain ⟨filter, hfilter⟩ := hoption hfilter
  obtain ⟨having, hhaving⟩ := hoption hhaving
  obtain ⟨selector, hselector⟩ := hoption hselector
  have horderings : ∃ orderings, List.Forall₂
      (fun o o' : OrderClause => R o.key o'.key ∧ o'.direction = o.direction)
      model.orderings orderings := by
    refine exists_forall₂ fun o ho => ?_
    obtain ⟨key, hkey⟩ := horderings o ho
    exact ⟨⟨key, o.direction⟩, hkey, rfl⟩
  have hoperators : ∃ operators, List.Forall₂ (ResultOperator.Related R)
      model.operators operators := by
    refine exists_forall₂ fun operator hmem => ?_
    unfold ResultOperator.Related
    cases hoperand : operator.operand? with
    | none => exact ⟨operator, rfl⟩
    | some e =>
        obtain ⟨e', he'⟩ := hoperators operator hmem e hoperand
        exact ⟨_, e', he', rfl⟩
  obtain ⟨orderings, horderings⟩ := horderings
  obtain ⟨operators, hoperators⟩ := hoperators
  exact ⟨{ model with filter, having, orderings, selector, operators }, rfl, rfl, rfl, rfl,
    hfilter, hhaving, horderings, hselector, hoperators⟩

/-- A model is related to itself exactly if its clause expressions are. -/
theorem self_iff : model.Related R model ↔ ∀ e ∈ model.clauseExpressions, R e e := by
  constructor
  · intro h
    exact List.forall₂_same.mp h.clauseExpressions
  · intro h
    obtain ⟨hselector, horderings, hoperators, hfilter, hhaving⟩ := forall_clauseExpressions.mp h
    have hoption : ∀ {o : Option Expr}, (∀ e, o = some e → R e e) → Option.Rel R o o := by
      intro o hclause
      cases o with
      | none => exact .none
      | some e => exact .some (hclause e rfl)
    refine ⟨rfl, rfl, rfl, rfl, hoption hfilter, hoption hhaving, List.forall₂_same.mpr ?_,
      hoption hselector, List.forall₂_same.mpr ?_⟩
    · exact fun o ho => ⟨horderings o ho, rfl⟩
    · intro operator hmem
      unfold ResultOperator.Related
      cases hoperand : operator.operand? with
      | none => rfl
      | some e =>
          exact ⟨e, hoperators operator hmem e hoperand,
            (ResultOperator.withOperand_self hoperand).symm⟩

end Related

end QueryModel

end ObjectQuery
