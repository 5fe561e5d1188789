import ObjectQuery.Proofs.Expansion.Basic
import ObjectQuery.Proofs.Expr.Scoping

/-!
# Expansion keeps references in scope

Where a subquery is taken apart, the tests, the left operands of coalesces and
the branches that are left out of its source come to stand where the subquery
stood. The source of a subquery is evaluated in the scope around it, so whatever
the source refers to is bound there too. The copies of the subquery bind the
same items as the subquery did, each in front of the same clauses.

## Main results

* `Expr.IsBranch.inPlace_wellScoped` — a source taken apart stays in scope.
* `expandWithin_wellScoped` — an expanded model is well scoped where the model was.
-/

namespace ObjectQuery

open Traced (Success)

variable {limit budget : Nat} {outer bound : List String}

/-- The test of an expanded coalesce refers to what its left operand does. -/
theorem Expr.WellScoped.isPresent {e : Expr} (h : e.WellScoped bound) :
    e.isPresent.WellScoped bound :=
  ⟨h, trivial⟩

/-- What stands in place of a branch is well scoped where the branch and the
subquery that reads from it are. The induction is on the decisions that are
taken apart. -/
theorem Expr.IsBranch.inPlace_wellScoped {reader : QueryModel} {e : Expr}
    (h : e.IsBranch reader.sourceNames) (he : e.WellScoped bound)
    (hreader : reader.WellScoped bound) : (e.inPlace reader).WellScoped bound := by
  induction h with
  | @whole e _ hwhole =>
      cases hcollection : e.type.isCollection with
      | true =>
          rw [inPlace_of_collection hwhole hcollection]
          exact hreader.withSource he
      | false =>
          rw [inPlace_of_not_collection hwhole hcollection]
          exact he
  | @conditional test a b _ htaken _ _ iha ihb =>
      obtain ⟨htest, ha, hb⟩ := he
      rw [inPlace_conditional htaken]
      exact ⟨htest, iha ha, ihb hb⟩
  | @coalesce a b _ htaken _ _ iha ihb =>
      obtain ⟨ha, hb⟩ := he
      rw [inPlace_coalesce htaken]
      exact ⟨WellScoped.isPresent ha, iha ha, ihb hb⟩

/-- Where what takes the place of each subquery stays in scope, so does the new
expression. -/
theorem Expr.Replaced.wellScoped {P : QueryModel → Expr → Prop} {e e' : Expr}
    (h : e.Replaced P e')
    (hresults : ∀ model result, P model result → model.WellScoped bound →
      result.WellScoped bound)
    (he : e.WellScoped bound) : e'.WellScoped bound := by
  induction e using Expr.inductionOnOperands generalizing e' with
  | step e ih =>
      rcases h.replaced_cases with ⟨model, rfl, hresult⟩ | ⟨hne, hne', hoperands⟩
      · exact hresults model e' hresult he
      · refine wellScoped_iff.mpr ⟨?_, ?_, fun model he' => absurd he' (hne' model)⟩
        · rintro name type rfl
          cases h with
          | source => exact he
          | subquery => exact absurd rfl (hne _)
        · intro operand' hoperand'
          obtain ⟨operand, hoperand, hreplaced⟩ := exists_left_of_forall₂ hoperands hoperand'
          exact ih operand hoperand hreplaced (he.operand hoperand)

/-! ## Models -/

/-- A related operand stays in scope. -/
theorem ResultOperator.Related.wellScoped {R : Expr → Expr → Prop}
    {operator operator' : ResultOperator} (h : operator.Related R operator')
    (hR : ∀ e e', R e e' → ∀ bound, e.WellScoped bound → e'.WellScoped bound)
    (hoperator : ∀ e, operator.operand? = some e → e.WellScoped (operator.scope outer bound)) :
    ∀ e', operator'.operand? = some e' → e'.WellScoped (operator'.scope outer bound) := by
  unfold Related at h
  cases hoperand : operator.operand? with
  | none =>
      rw [hoperand] at h
      obtain rfl : operator' = operator := h
      exact hoperator
  | some e =>
      rw [hoperand] at h
      obtain ⟨e', hrelated, rfl⟩ := h
      intro other hother
      rw [operand?_withOperand hoperand] at hother
      obtain rfl := Option.some.inj hother
      have hscope : (operator.withOperand e').scope outer bound = operator.scope outer bound := by
        cases operator <;> rfl
      rw [hscope]
      exact hR e e' hrelated _ (hoperator e hoperand)

namespace QueryModel

variable {model model' nested nested' : QueryModel} {source result : Expr}

/-- Where the clauses of a model stay in scope when they are replaced, so does the
model. -/
theorem Related.wellScoped {R : Expr → Expr → Prop} (h : model.Related R model')
    (hR : ∀ e e', R e e' → ∀ bound, e.WellScoped bound → e'.WellScoped bound)
    (hmodel : model.WellScoped outer) : model'.WellScoped outer := by
  have hscope : model'.scope outer = model.scope outer := by
    unfold scope
    rw [h.item, h.joins]
  have hoption : ∀ {o o' : Option Expr}, Option.Rel R o o' →
      optionWellScoped (model.scope outer) o → optionWellScoped (model.scope outer) o' := by
    intro o o' hrel ho
    cases hrel with
    | none => trivial
    | some hrelated => exact hR _ _ hrelated _ ho
  obtain ⟨hsource, hjoins, hfilter, hhaving, horderings, hselector, hoperators⟩ :=
    wellScoped_iff.mp hmodel
  refine wellScoped_iff.mpr ?_
  rw [hscope, h.source, h.joins, h.item]
  refine ⟨hsource, hjoins, hoption h.filter hfilter, hoption h.having hhaving, ?_,
    hoption h.selector hselector, ?_⟩
  · rw [orderingsWellScoped_iff] at horderings ⊢
    intro o' ho'
    obtain ⟨o, ho, hkey, -⟩ := exists_left_of_forall₂ h.orderings ho'
    exact hR _ _ hkey _ (horderings o ho)
  · rw [operatorsWellScoped_iff] at hoperators ⊢
    intro operator' hoperator'
    obtain ⟨operator, hoperator, hrelated⟩ := exists_left_of_forall₂ h.operators hoperator'
    exact hrelated.wellScoped hR (hoperators operator hoperator)

/-- What takes the place of a subquery is well scoped where the subquery with its
expanded clauses is. -/
theorem Becomes.wellScoped (h : nested.Becomes limit budget nested' source result)
    (hnested : nested'.WellScoped bound) : result.WellScoped bound := by
  rw [h.result_eq]
  by_cases htaken : source.expands nested'.sourceNames = true
  · have hbranch := Expr.isBranch nested'.sourceNames (h.isSound_of_expands htaken)
    rw [if_pos htaken]
    exact hbranch.inPlace_wellScoped (hnested.source h.source_eq) hnested
  · rw [if_neg htaken]
    exact hnested

end QueryModel

/-- An expansion keeps every reference in scope. The induction is on how deep
subqueries may nest. -/
theorem expandWithin_wellScoped {model model' : QueryModel}
    (hexpand : (model.expandWithin limit budget).outcome = .ok model')
    (hmodel : model.WellScoped outer) : model'.WellScoped outer := by
  induction budget using Nat.strongRecOn generalizing model model' outer with
  | ind budget ih =>
      have hrelated :=
        (@expandWithin_reaches_iff limit budget model model' Success.anyhow).mp hexpand
      refine hrelated.wellScoped (fun e e' hreplaced bound => hreplaced.2.wellScoped ?_) hmodel
      intro nested result hresult hnested
      obtain ⟨left, nested', source, hbudget, hbecomes⟩ := replacement_outcome_iff.mp hresult
      exact hbecomes.wellScoped (ih left (by omega) hbecomes.expandWithin_eq hnested)

end ObjectQuery
