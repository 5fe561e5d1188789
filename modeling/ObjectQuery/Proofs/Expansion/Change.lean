import ObjectQuery.Proofs.Expansion.Shape

/-!
# Whether an expansion changed a model

An expansion rebuilds the whole model, and tells by its trace whether it
changed anything. The trace can be trusted in both directions. Where it is
empty, every subquery took its own place, so that the model was put together
again as it was. And where something took the place of a subquery, that is
a conditional, so that the model cannot be the same.

## Main results

* `expandWithin_eq_pure_iff_eq` — a model that comes out as it was left no
  trace, and the other way round.
* `expandInPlace_run` — what expanding a model in place does to it.
* `expand_changed_iff_ne` — the flag of both is exact.
-/

namespace ObjectQuery

open Traced (Success)

variable {limit budget : Nat} {model model' : QueryModel}

/-- What takes the place of an expanded source is a conditional. -/
theorem Expr.inPlace_ne_subquery {source : Expr} {other : QueryModel} (hsound : source.IsSound)
    (hexpands : source.expands model.sourceNames = true) :
    source.inPlace model ≠ .subquery other := by
  intro h
  cases source with
  | conditional test whenTrue whenFalse =>
      obtain ⟨-, a, b, rfl, rfl, -⟩ := isSound_conditional.mp hsound
      rw [inPlace_conditional hexpands] at h
      cases h
  | coalesce left right =>
      obtain ⟨a, b, rfl, rfl, -⟩ := isSound_coalesce.mp hsound
      rw [inPlace_coalesce hexpands] at h
      cases h
  | _ => cases hexpands

/-- A subquery takes its own place only where its clauses come out as they
were and its source is not taken apart. -/
theorem QueryModel.Becomes.of_self {nested expanded : QueryModel} {source : Expr}
    (h : nested.Becomes limit budget expanded source (.subquery nested)) :
    expanded = nested ∧ ¬nested.ReadsApart := by
  have hexpands : source.expands expanded.sourceNames = false := by
    rw [Bool.eq_false_iff]
    intro hexpands
    have hresult := h.result_eq
    rw [if_pos hexpands] at hresult
    exact Expr.inPlace_ne_subquery (h.isSound_of_expands hexpands) hexpands hresult.symm
  have hsame := Expr.subquery.inj (h.result_eq_self hexpands)
  refine ⟨hsame.symm, ?_⟩
  rw [← h.expands_iff_readsApart, hexpands]
  exact Bool.false_ne_true

/-- An expansion that leaves no trace puts the model together again as it was.
The induction is on how deep subqueries may nest. -/
theorem eq_of_expandWithin_eq_pure (h : model.expandWithin limit budget = pure model') :
    model' = model := by
  induction budget generalizing model model' with
  | zero =>
      have hrelated := (@expandWithin_reaches_iff limit 0 model model' Success.quietly).mp h
      refine hrelated.eq_of_forall fun e e' hreplaced => Expr.Replaced.eq_of_self ?_
      refine hreplaced.2.mono fun nested _ result hresult => ?_
      have houtcome := Traced.outcome_eq_of_eq_pure hresult
      cases houtcome
  | succ budget ih =>
      have hrelated := (@expandWithin_reaches_iff limit _ model model' Success.quietly).mp h
      refine hrelated.eq_of_forall fun e e' hreplaced => Expr.Replaced.eq_of_self ?_
      refine hreplaced.2.mono fun nested _ result hresult => ?_
      obtain ⟨expanded, source, hexpanded, hbecomes, hreads⟩ :=
        replacement_eq_pure_iff.mp hresult
      rw [(hbecomes.keeps_source hreads).1, ih hexpanded]

/-- An expansion after which the model is as it was left no trace: every
subquery in it took its own place. The induction is on how deep subqueries
may nest. -/
theorem expandWithin_eq_pure_of_self
    (h : (model.expandWithin limit budget).outcome = .ok model) :
    model.expandWithin limit budget = pure model := by
  induction budget generalizing model with
  | zero =>
      rw [expandWithin_eq_pure_iff_replacement h]
      intro nested result _ houtcome
      cases houtcome
  | succ budget ih =>
      have hrelated := (@expandWithin_reaches_iff limit _ model model Success.anyhow).mp h
      rw [expandWithin_eq_pure_iff_replacement h]
      intro nested result hnests houtcome
      obtain ⟨e, he, hholds⟩ := hnests
      obtain ⟨hsound, hreplaced⟩ := QueryModel.Related.self_iff.mp hrelated e he
      have hself : (Expansion.replacement limit (budget + 1) nested).outcome =
          .ok (.subquery nested) := (Expr.Replaced.self_iff hsound).mp hreplaced nested hholds
      obtain rfl : result = .subquery nested := Except.ok.inj (houtcome.symm.trans hself)
      obtain ⟨left, expanded, source, hbudget, hbecomes⟩ := replacement_outcome_iff.mp hself
      obtain rfl : budget = left := Nat.succ.inj hbudget
      obtain ⟨rfl, hreads⟩ := hbecomes.of_self
      exact replacement_eq_pure_iff.mpr
        ⟨_, source, ih hbecomes.expandWithin_eq, hbecomes, hreads⟩

/-- A model comes out of an expansion as it was exactly if the expansion left
no trace. -/
theorem expandWithin_eq_pure_iff_eq
    (h : (model.expandWithin limit budget).outcome = .ok model') :
    model.expandWithin limit budget = pure model' ↔ model' = model := by
  constructor
  · exact eq_of_expandWithin_eq_pure
  · rintro rfl
    exact expandWithin_eq_pure_of_self h

/-! ## In place -/

/-- Expanding a model in place replaces it where something changed, and
neither where nothing did nor where there is an error. -/
theorem expandInPlace_run (limit : Nat) (model : QueryModel) :
    (expandInPlace limit).run.run model =
      match (model.expand limit).outcome with
      | .error e => (.error e, model)
      | .ok result =>
        if (model.expand limit).changed then (.ok true, result) else (.ok false, model) := by
  show ((do
    let result ← ExceptT.mk (pure (model.expand limit).outcome)
    if (model.expand limit).changed then
      set result
      return true
    else return false : ExceptT ExpansionError (StateM QueryModel) Bool).run.run model) = _
  cases (model.expand limit).outcome with
  | error e => rfl
  | ok result => cases (model.expand limit).changed <;> rfl

/-- An expansion that succeeds tells exactly whether the model that comes out
is another one, in whichever clause and however deep. Expanding the model in
place succeeds too, leaves the same model there, and tells the same. -/
theorem expand_changed_iff_ne {limit : Nat} {model model' : QueryModel}
    (hexpand : (model.expand limit).outcome = .ok model') :
    ((model.expand limit).changed = true ↔ model' ≠ model) ∧
      ∃ changed, (expandInPlace limit).run.run model = (.ok changed, model') ∧
        (changed = true ↔ model' ≠ model) := by
  have hsame : (model.expand limit).changed = false ↔ model' = model :=
    (changed_eq_false_iff hexpand).trans (expandWithin_eq_pure_iff_eq hexpand)
  have hchanged : (model.expand limit).changed = true ↔ model' ≠ model := by
    rw [← Bool.not_eq_false, hsame]
  refine ⟨hchanged, (model.expand limit).changed, ?_, hchanged⟩
  rw [expandInPlace_run, hexpand]
  cases hflag : (model.expand limit).changed with
  | true => rfl
  | false =>
      rw [hsame.mp hflag]
      rfl

/-- A count of lines from a decision that is not taken apart. -/
def countOfShared : QueryModel :=
  perOrder (.subquery (countLines sharedLines))

/-- A change in the filter of a subquery is told, and a decision that stays as it
is tells of none. -/
theorem countIfAnySelected_expandInPlace :
    (∃ expanded, (expandInPlace 8).run.run countIfAnySelected = (.ok true, expanded) ∧
        expanded ≠ countIfAnySelected) ∧
      (expandInPlace 8).run.run countOfShared = (.ok false, countOfShared) := by
  constructor
  · have hexpand : (countIfAnySelected.expand 8).outcome = .ok _ := rfl
    obtain ⟨hflag, changed, hrun, hchanged⟩ := expand_changed_iff_ne hexpand
    have hne := hflag.mp rfl
    obtain rfl : changed = true := hchanged.mpr hne
    exact ⟨_, hrun, hne⟩
  · have hexpand : (countOfShared.expand 8).outcome = .ok countOfShared := rfl
    obtain ⟨-, changed, hrun, hchanged⟩ := expand_changed_iff_ne hexpand
    have hflag : changed = false := by
      rw [← Bool.not_eq_true, hchanged]
      exact not_not_intro rfl
    rw [hrun, hflag]

end ObjectQuery
