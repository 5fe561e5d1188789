import Mathlib.Logic.Relation
import ObjectQuery.Proofs.Expansion.Clauses
import ObjectQuery.Proofs.Expansion.Parts

/-!
# One expansion of a model

The expansion of a model relates its clause expressions to new ones in which
every subquery is replaced: by itself with its own clauses expanded, or by
its source taken apart where that source is to be expanded. The lemmas here
say so once for both notions of success, and for a subquery say what its
replacement is and when it stays.

## Main results

* `expandWithin_reaches_iff` — expanding a model relates its clauses.
* `ofSubquery_outcome_iff`, `ofSubquery_eq_pure_iff` — what stands in place of
  a subquery, and when it stays.
* `expandWithin_eq_pure_iff` — which models are left alone.
-/

namespace ObjectQuery

open Traced (Success)

namespace Expansion

/-- What the expansion of clauses puts in place of a subquery, where
subqueries may nest `budget` deep. -/
def replacement (limit : Nat) : (budget : Nat) → QueryModel → Expansion Expr
  | 0, _ => throw (.tooDeep limit)
  | budget + 1, nested => do ofSubquery (← nested.expandWithin limit budget)

end Expansion

variable {limit budget : Nat} {model model' : QueryModel}

theorem QueryModel.expandWithin_eq (limit budget : Nat) (model : QueryModel) :
    model.expandWithin limit budget =
      model.mapClausesM (Expr.rebuild (Expansion.rebuilder
        (Expansion.replacement limit budget))) := by
  cases budget <;> rfl

section

variable {s : Success ExpansionEvent ExpansionError}

/-- Expanding a model relates its clause expressions. -/
theorem expandWithin_reaches_iff :
    s.Reaches (model.expandWithin limit budget) model' ↔
      model.Related (fun e e' => e.IsSound ∧ e.Replaced (fun nested result =>
        s.Reaches (Expansion.replacement limit budget nested) result) e') model' := by
  rw [QueryModel.expandWithin_eq, QueryModel.mapClausesM_reaches_iff]
  simp only [rebuild_reaches_iff]

end

theorem QueryModel.mainSource_eq_ok_iff {source : Expr} :
    model.mainSource = .ok source ↔ model.source = some source := by
  unfold QueryModel.mainSource
  cases model.source with
  | none => simp
  | some e => simp

/-- What stands in place of a subquery whose own clauses are expanded. -/
theorem ofSubquery_outcome_iff {result : Expr} :
    (Expansion.ofSubquery model).outcome = .ok result ↔
      ∃ source, model.source = some source ∧
        (source.isBranching = true → source.IsSound) ∧
        result = if source.expands model.sourceNames then source.inPlace model
          else .subquery model := by
  have hmodel : ∀ {α : Type} {x : Except ModelError α} {a : α},
      (Expansion.ofModel x).outcome = .ok a ↔ x = .ok a :=
    @ofModel_reaches_iff Success.anyhow
  simp only [Expansion.ofSubquery, Traced.outcome_bind_eq_ok, hmodel,
    QueryModel.mainSource_eq_ok_iff, expandSource?_eq_ok_iff]
  constructor
  · intro h
    obtain ⟨source, hsource, _, ⟨hsound, rfl⟩, hresult⟩ := h
    refine ⟨source, hsource, hsound, ?_⟩
    cases hexpands : source.expands model.sourceNames with
    | true =>
        rw [hexpands, if_pos rfl] at hresult
        rw [if_pos rfl, Expr.inPlace, if_pos hexpands]
        exact (Except.ok.inj hresult).symm
    | false =>
        rw [hexpands, if_neg Bool.false_ne_true] at hresult
        rw [if_neg Bool.false_ne_true]
        exact (Except.ok.inj hresult).symm
  · intro h
    obtain ⟨source, hsource, hsound, rfl⟩ := h
    refine ⟨source, hsource, _, ⟨hsound, rfl⟩, ?_⟩
    cases hexpands : source.expands model.sourceNames with
    | true =>
        rw [if_pos rfl, if_pos rfl, Expr.inPlace, if_pos hexpands]
        rfl
    | false =>
        rw [if_neg Bool.false_ne_true, if_neg Bool.false_ne_true]
        rfl

/-- A subquery stays exactly if its source is not expanded. -/
theorem ofSubquery_eq_pure_iff {result : Expr} :
    Expansion.ofSubquery model = pure result ↔
      ∃ source, model.source = some source ∧
        (source.isBranching = true → source.IsSound) ∧
        source.expands model.sourceNames = false ∧ result = .subquery model := by
  have hmodel : ∀ {α : Type} {x : Except ModelError α} {a : α},
      Expansion.ofModel x = pure a ↔ x = .ok a :=
    @ofModel_reaches_iff Success.quietly
  simp only [Expansion.ofSubquery, Traced.bind_eq_pure, hmodel,
    QueryModel.mainSource_eq_ok_iff, expandSource?_eq_ok_iff]
  constructor
  · intro h
    obtain ⟨source, hsource, _, ⟨hsound, rfl⟩, hresult⟩ := h
    refine ⟨source, hsource, hsound, ?_⟩
    cases hexpands : source.expands model.sourceNames with
    | true =>
        rw [hexpands, if_pos rfl] at hresult
        exact absurd hresult Traced.emit_bind_ne_pure
    | false =>
        rw [hexpands, if_neg Bool.false_ne_true] at hresult
        exact ⟨rfl, (Traced.pure_inj.mp hresult).symm⟩
  · intro h
    obtain ⟨source, hsource, hsound, hexpands, rfl⟩ := h
    refine ⟨source, hsource, _, ⟨hsound, rfl⟩, ?_⟩
    rw [hexpands, if_neg Bool.false_ne_true]

/-! ## Models that are left alone -/

/-- A subquery stands in a clause expression of the model. -/
def QueryModel.Nests (model nested : QueryModel) : Prop :=
  ∃ e ∈ model.clauseExpressions, e.Holds nested

/-- The expansion changes nothing in the expression. -/
def Expr.IsLeftAlone (limit budget : Nat) (e : Expr) : Prop :=
  e.rebuild (Expansion.rebuilder (Expansion.replacement limit budget)) = pure e

/-- The expansion changes nothing in the subquery. -/
def QueryModel.Stays (limit budget : Nat) (nested : QueryModel) : Prop :=
  Expansion.replacement limit budget nested = pure (.subquery nested)

theorem isLeftAlone_iff {e : Expr} :
    e.IsLeftAlone limit budget ↔
      e.IsSound ∧ ∀ nested, e.Holds nested → nested.Stays limit budget :=
  Expr.rebuild_eq_pure_iff

/-- A model is left alone exactly if each of its clause expressions is. -/
theorem expandWithin_eq_pure_iff :
    model.expandWithin limit budget = pure model ↔
      ∀ e ∈ model.clauseExpressions, e.IsLeftAlone limit budget := by
  have hreaches : model.expandWithin limit budget = pure model ↔ _ :=
    @expandWithin_reaches_iff limit budget model model Success.quietly
  rw [hreaches, QueryModel.Related.self_iff]
  constructor
  · intro h e he
    obtain ⟨hsound, hreplaced⟩ := h e he
    exact isLeftAlone_iff.mpr ⟨hsound, (Expr.Replaced.self_iff hsound).mp hreplaced⟩
  · intro h e he
    obtain ⟨hsound, hstays⟩ := isLeftAlone_iff.mp (h e he)
    exact ⟨hsound, (Expr.Replaced.self_iff hsound).mpr hstays⟩

/-- No subquery stays where none may be. -/
theorem not_stays_zero : ¬model.Stays limit 0 := by
  intro h
  have houtcome := Traced.outcome_eq_of_eq_pure h
  cases houtcome

/-- A subquery stays exactly if its clauses are left alone and its source is
sound and not expanded. -/
theorem stays_succ_iff :
    model.Stays limit (budget + 1) ↔
      model.expandWithin limit budget = pure model ∧
        ∃ source, model.source = some source ∧
          (source.isBranching = true → source.IsSound) ∧
          source.expands model.sourceNames = false := by
  unfold QueryModel.Stays Expansion.replacement
  rw [Traced.bind_eq_pure]
  constructor
  · intro h
    obtain ⟨model', hexpand, hsubquery⟩ := h
    obtain ⟨source, hsource, hsound, hexpands, heq⟩ := ofSubquery_eq_pure_iff.mp hsubquery
    obtain rfl := Expr.subquery.inj heq
    exact ⟨hexpand, source, hsource, hsound, hexpands⟩
  · intro h
    obtain ⟨hexpand, source, hsource, hsound, hexpands⟩ := h
    exact ⟨model, hexpand,
      ofSubquery_eq_pure_iff.mpr ⟨source, hsource, hsound, hexpands, rfl⟩⟩

/-! ## A subquery and what takes its place -/

/-- The subquery over `nested` was replaced by `result`; its own clauses were
expanded first, which gave `nested'`. -/
structure QueryModel.Becomes (limit budget : Nat) (nested nested' : QueryModel)
    (source result : Expr) : Prop where
  expandWithin_eq : (nested.expandWithin limit budget).outcome = .ok nested'
  source_eq : nested'.source = some source
  isSound : source.isBranching = true → source.IsSound
  result_eq : result = if source.expands nested'.sourceNames then source.inPlace nested'
    else .subquery nested'

/-- Expansion keeps the source of a model and the names of its sources. -/
theorem expandWithin_source (h : (model.expandWithin limit budget).outcome = .ok model') :
    model'.source = model.source ∧ model'.sourceNames = model.sourceNames := by
  have hrelated := (@expandWithin_reaches_iff limit budget model model' Success.anyhow).mp h
  refine ⟨hrelated.source, ?_⟩
  unfold QueryModel.sourceNames
  rw [hrelated.item, hrelated.joins]

theorem replacement_outcome_iff {result : Expr} :
    (Expansion.replacement limit budget model).outcome = .ok result ↔
      ∃ left nested' source, budget = left + 1 ∧
        model.Becomes limit left nested' source result := by
  cases budget with
  | zero =>
      constructor
      · intro h
        cases h
      · intro h
        obtain ⟨left, _, _, hbudget, _⟩ := h
        cases hbudget
  | succ budget =>
      unfold Expansion.replacement
      rw [Traced.outcome_bind_eq_ok]
      simp only [ofSubquery_outcome_iff]
      constructor
      · intro h
        obtain ⟨nested', hexpanded, source, hsource, hsound, hresult⟩ := h
        exact ⟨budget, nested', source, rfl, hexpanded, hsource, hsound, hresult⟩
      · intro h
        obtain ⟨left, nested', source, hbudget, hexpanded, hsource, hsound, hresult⟩ := h
        obtain rfl : budget = left := Nat.succ.inj hbudget
        exact ⟨nested', hexpanded, source, hsource, hsound, hresult⟩

namespace QueryModel.Becomes

variable {nested nested' : QueryModel} {source result : Expr}

theorem isSound_of_expands (h : nested.Becomes limit budget nested' source result)
    (hexpands : source.expands nested'.sourceNames = true) : source.IsSound := by
  by_cases hbranching : source.isBranching = true
  · exact h.isSound hbranching
  · rw [Expr.expands_eq_false (Bool.eq_false_iff.mpr hbranching)] at hexpands
    cases hexpands

/-- A subquery whose source is not expanded takes its own place. -/
theorem result_eq_self (h : nested.Becomes limit budget nested' source result)
    (hexpands : source.expands nested'.sourceNames = false) : result = .subquery nested' := by
  rw [h.result_eq, hexpands, if_neg Bool.false_ne_true]

end QueryModel.Becomes

end ObjectQuery
