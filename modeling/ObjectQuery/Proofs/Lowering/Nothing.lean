import ObjectQuery.Proofs.Lowering.Apart

/-!
# What a query makes of nothing

Without items there are no rows, and what a query makes of no rows is up to its
aggregate: a sum, an average and the extremes are null, the first and the only
row are missing, and any other aggregate has a value of its own, as has the
list of the rows.

The aggregate of a query comes from the last result operator of its model, so
the model says what becomes of nothing.

## Main results

* `Query.presented_nil_eq_null_iff` — of which queries nothing makes null.
* `QueryModel.LowersTo.aggregate_reduces`, `QueryModel.LowersTo.aggregate_matches` — the
  aggregate of a query.
* `inPlace_eval_eq_iff` — when a subquery keeps its value although a null
  constant is left out of its source.
-/

namespace ObjectQuery

open Hql (Node Query Aggregate)

namespace Hql

variable {env : Environment} {outer : Scope}

/-! ## No rows -/

/-- Whether the aggregate is null where there are no rows. -/
def Aggregate.isNullOverNothing : Aggregate → Bool
  | .sum | .min | .max | .average => true
  | _ => false

/-- Whether the aggregate is missing where there are no rows. -/
def Aggregate.failsOverNothing : Aggregate → Bool
  | .first | .single => true
  | _ => false

private theorem runJoins_nil (joins : List Join) : runJoins env joins [] = .ok [] := by
  induction joins with
  | nil => rfl
  | cons j rest ih =>
      obtain ⟨source, name, on⟩ := j
      rw [runJoins, joinScopes, ok_bind, ih]

private theorem Query.selected_nil (q : Query) : q.selected env outer [] = .ok [] := by
  have hfilter : ∀ filter : Option Node, runFilter env filter [] = .ok [] := by
    intro filter
    cases filter <;> rfl
  have hsort : ∀ directions keys, sortScopes directions keys [] = .ok [] := by
    intro directions keys
    unfold sortScopes
    rw [List.mapM_nil, pure_bind, List.mergeSort_nil]
    rfl
  unfold Query.selected
  rw [List.map_nil, runJoins_nil, ok_bind, hfilter, ok_bind, hfilter, ok_bind, hsort, ok_bind]
  rfl

/-- What a query makes of no items is what its aggregate makes of no rows. -/
theorem Query.result_nil {q : Query} {v : Value} (h : q.result env outer [] = .ok v) :
    runAggregate env q.aggregate [] outer = .ok v := by
  have hdistinct : q.distinctRows [] = [] := by
    unfold Query.distinctRows
    cases q.distinct <;> rfl
  unfold Query.result at h
  rw [Query.selected_nil, ok_bind, Query.finish, hdistinct] at h
  obtain ⟨skipped, -, h⟩ := bind_eq_ok.mp h
  obtain ⟨taken, -, h⟩ := bind_eq_ok.mp h
  rw [List.drop_nil, List.take_nil] at h
  exact h

private theorem Aggregate.runAggregate_nil_eq_null_iff {aggregate : Aggregate} {v : Value}
    (h : runAggregate env (some aggregate) [] outer = .ok v) :
    v = .null ↔ aggregate.isNullOverNothing = true := by
  cases aggregate with
  | contains item =>
      rw [runAggregate] at h
      obtain ⟨w, -, hv⟩ := bind_eq_ok.mp h
      obtain rfl := Except.ok.inj hv
      simp [isNullOverNothing]
  | first | single => cases h
  | sum | min | max | average =>
      obtain rfl := Except.ok.inj h
      exact iff_of_true rfl rfl
  | _ =>
      obtain rfl := Except.ok.inj h
      simp [isNullOverNothing, Value.ofCount]

/-- Of nothing a subquery makes null exactly if its aggregate does. -/
theorem Query.presented_nil_eq_null_iff {q : Query} {v : Value}
    (h : q.presented env outer [] = .ok v) :
    v = .null ↔ ∃ aggregate, q.aggregate = some aggregate ∧
      aggregate.isNullOverNothing = true := by
  unfold Query.presented at h
  cases hasks : q.asksExistence with
  | true =>
      rw [hasks, if_pos rfl] at h
      obtain ⟨w, -, rfl⟩ := map_eq_ok.mp h
      unfold Query.asksExistence at hasks
      simp only [Bool.and_eq_true, Option.any_eq_true] at hasks
      obtain ⟨⟨⟨aggregate, haggregate, hany⟩, -⟩, -⟩ := hasks
      constructor
      · intro hnull
        cases w <;> cases hnull
      · intro hnull
        obtain ⟨aggregate', haggregate', hnull⟩ := hnull
        obtain rfl := Option.some.inj (haggregate.symm.trans haggregate')
        cases aggregate with
        | any => cases hnull
        | _ => cases hany
  | false =>
      rw [hasks, if_neg Bool.false_ne_true] at h
      have hrun := Query.result_nil h
      cases haggregate : q.aggregate with
      | none =>
          rw [haggregate] at hrun
          obtain rfl := Except.ok.inj hrun
          simp
      | some aggregate =>
          rw [haggregate] at hrun
          rw [Aggregate.runAggregate_nil_eq_null_iff hrun]
          simp

/-- Null is the result of such aggregates only that are null or missing where
there are no rows. -/
theorem runAggregate_eq_null {aggregate : Option Aggregate} {rows : List Row}
    (h : runAggregate env aggregate rows outer = .ok .null) :
    ∃ a, aggregate = some a ∧ (a.isNullOverNothing = true ∨ a.failsOverNothing = true) := by
  cases aggregate with
  | none => cases h
  | some a =>
      refine ⟨a, rfl, ?_⟩
      cases a with
      | all predicate | contains predicate =>
          rw [runAggregate] at h
          obtain ⟨w, -, hv⟩ := bind_eq_ok.mp h
          cases hv
      | sum | min | max | average => exact .inl rfl
      | first | single => exact .inr rfl
      | _ => cases h

/-- Whatever the items are, a subquery makes null of them only if its aggregate
is null or missing where there are no rows. -/
theorem Query.presented_eq_null {q : Query} {items : List Value}
    (h : q.presented env outer items = .ok .null) :
    ∃ a, q.aggregate = some a ∧ (a.isNullOverNothing = true ∨ a.failsOverNothing = true) := by
  unfold Query.presented at h
  cases hasks : q.asksExistence with
  | true =>
      rw [hasks, if_pos rfl] at h
      obtain ⟨w, -, hw⟩ := map_eq_ok.mp h
      cases w <;> cases hw
  | false =>
      rw [hasks, if_neg Bool.false_ne_true] at h
      obtain ⟨rows, -, hrows⟩ := bind_eq_ok.mp h
      obtain ⟨skipped, -, hskipped⟩ := bind_eq_ok.mp hrows
      obtain ⟨taken, -, htaken⟩ := bind_eq_ok.mp hskipped
      exact runAggregate_eq_null htaken

/-- The aggregate says whether a subquery makes null of nothing. -/
theorem Query.isNullOverNothing {q : Query} {aggregate : Aggregate}
    (haggregate : q.aggregate = some aggregate)
    (h : aggregate.isNullOverNothing = true ∨ aggregate.failsOverNothing = true) :
    q.IsNullOverNothing := by
  intro env scope v hv
  rcases h with hnull | hfails
  · exact (Query.presented_nil_eq_null_iff hv).mpr ⟨aggregate, haggregate, hnull⟩
  · have hasks : q.asksExistence = false := by
      unfold Query.asksExistence
      rw [haggregate]
      cases aggregate with
      | any => cases hfails
      | _ => rfl
    unfold Query.presented at hv
    rw [hasks, if_neg Bool.false_ne_true] at hv
    have hrun := Query.result_nil hv
    rw [haggregate] at hrun
    cases aggregate with
    | first | single => cases hrun
    | _ => cases hfails

theorem Query.failsOverNothing {q : Query} {aggregate : Aggregate}
    (haggregate : q.aggregate = some aggregate) (h : aggregate.failsOverNothing = true) :
    q.FailsOverNothing := by
  intro env scope v hv
  have hnull := (Query.presented_nil_eq_null_iff hv).mp
    (Query.isNullOverNothing haggregate (.inr h) env scope v hv)
  obtain ⟨aggregate', haggregate', hnull⟩ := hnull
  obtain rfl := Option.some.inj (haggregate.symm.trans haggregate')
  cases aggregate with
  | first | single => cases hnull
  | _ => cases h

end Hql

/-! ## The aggregate of a model -/

/-- Whether the reduction is null where there are no results. -/
def ResultOperator.isNullOverNothing : ResultOperator → Bool
  | .sum | .min | .max | .average => true
  | _ => false

/-- Whether the reduction is missing where there are no results. -/
def ResultOperator.failsOverNothing : ResultOperator → Bool
  | .first | .single => true
  | _ => false

/-- The reduction of a model and the aggregate of its query are null, or
missing, over nothing alike. -/
structure ResultOperator.MatchesOverNothing (reduction : ResultOperator) (aggregate : Aggregate) :
    Prop where
  isNull_eq : aggregate.isNullOverNothing = reduction.isNullOverNothing
  fails_eq : aggregate.failsOverNothing = reduction.failsOverNothing

section

variable {registry : Registry} {limit depth : Nat}

private theorem ResultOperator.stage_of_isScalar {operator : ResultOperator} {stage : Stage}
    (hscalar : operator.isScalar = true)
    (h : (operator.stage registry limit depth).outcome = .ok stage) :
    ∃ aggregate, stage = .reduce aggregate ∧ operator.MatchesOverNothing aggregate := by
  cases operator with
  | take | skip | distinct => cases hscalar
  | all predicate | contains item =>
      obtain ⟨n, -, rfl⟩ := Traced.outcome_map_eq_ok.mp h
      exact ⟨_, rfl, rfl, rfl⟩
  | _ =>
      obtain rfl := Except.ok.inj h
      exact ⟨_, rfl, rfl, rfl⟩

private theorem ResultOperator.aggregate_after {operator : ResultOperator} {stage : Stage}
    (tail : Tail)
    (hscalar : operator.isScalar = false)
    (h : (operator.stage registry limit depth).outcome = .ok stage) :
    (tail.after stage).aggregate = tail.aggregate := by
  cases operator with
  | take rows | skip rows =>
      obtain ⟨n, -, rfl⟩ := Traced.outcome_map_eq_ok.mp h
      rfl
  | distinct =>
      obtain rfl := Except.ok.inj h
      rfl
  | _ => cases hscalar

/-- The reduction becomes the aggregate. -/
def ResultOperator.ReducesTo (registry : Registry) (limit depth : Nat) (operator : ResultOperator)
    (aggregate : Aggregate) : Prop :=
  (operator.stage registry limit depth).outcome = .ok (.reduce aggregate)

/-- Nothing follows a reduction, so the last one is the aggregate. -/
theorem aggregate_foldl_after {operators : List ResultOperator} {stages : List Stage}
    (h : List.Forall₂ (fun operator stage =>
      (operator.stage registry limit depth).outcome = .ok stage) operators stages)
    {tail : Tail} (hadmits : tail.AdmitsAll stages) (hnone : tail.aggregate = none) :
    Option.Rel (ResultOperator.ReducesTo registry limit depth)
      (operators.reverse.find? ResultOperator.isScalar)
      (stages.foldl Tail.after tail).aggregate := by
  induction h generalizing tail with
  | nil =>
      rw [List.foldl_nil, hnone]
      exact .none
  | @cons operator stage operators stages hstage hrest ih =>
      rw [List.reverse_cons, List.find?_append, List.find?_singleton]
      cases hscalar : operator.isScalar with
      | true =>
          obtain ⟨aggregate, rfl, -⟩ := ResultOperator.stage_of_isScalar hscalar hstage
          have haggregate : (tail.after (.reduce aggregate)).aggregate = some aggregate := rfl
          obtain rfl := Tail.eq_nil_of_admitsAll hadmits.2 haggregate
          cases hrest
          exact .some hstage
      | false =>
          rw [if_neg Bool.false_ne_true, Option.or_none]
          exact ih hadmits.2 ((operator.aggregate_after tail hscalar hstage).trans hnone)

/-- The last reduction of a model becomes the aggregate of its query. -/
theorem QueryModel.LowersTo.aggregate_reduces {model : QueryModel} {query : Query}
    (h : model.LowersTo registry limit depth query) :
    Option.Rel (ResultOperator.ReducesTo registry limit depth) model.reduction?
      query.aggregate := by
  obtain ⟨stages, hstages, hadmits, htail⟩ := lowerOperators_eq_ok.mp h.tail
  have hreduces := aggregate_foldl_after (mapM_stage_outcome_iff.mp hstages) hadmits rfl
  rw [htail] at hreduces
  exact hreduces

/-- The last reduction of a model and the aggregate of its query make the same of nothing. -/
theorem QueryModel.LowersTo.aggregate_matches {model : QueryModel} {query : Query}
    (h : model.LowersTo registry limit depth query) :
    Option.Rel ResultOperator.MatchesOverNothing model.reduction? query.aggregate := by
  have hreduces := h.aggregate_reduces
  generalize hreduction : model.reduction? = reduction at hreduces
  generalize query.aggregate = aggregate at hreduces
  cases hreduces with
  | none => exact .none
  | some hstage =>
      obtain ⟨_, hreduce, hmatches⟩ :=
        ResultOperator.stage_of_isScalar (List.find?_some hreduction) hstage
      obtain rfl := Stage.reduce.inj hreduce
      exact .some hmatches

end

/-! ## Reading nothing -/

/-- Where there are no results, the value of the model is null or missing. -/
def QueryModel.NullsNothing (model : QueryModel) : Prop :=
  ∃ reduction, model.reduction? = some reduction ∧
    (reduction.isNullOverNothing = true ∨ reduction.failsOverNothing = true)

section

variable {registry : Registry} {limit depth : Nat} {reader : QueryModel} {query : Query}

private theorem QueryModel.LowersTo.isNullOverNothing
    (h : reader.LowersTo registry limit depth query)
    (hnulls : reader.NullsNothing) : query.IsNullOverNothing := by
  obtain ⟨reduction, hreduction, hkind⟩ := hnulls
  have hmatches := h.aggregate_matches
  rw [hreduction] at hmatches
  generalize haggregate : query.aggregate = o at hmatches
  cases hmatches with
  | some hmatches =>
      rw [← hmatches.isNull_eq, ← hmatches.fails_eq] at hkind
      exact Hql.Query.isNullOverNothing haggregate hkind

private theorem QueryModel.LowersTo.nullsNothing (h : reader.LowersTo registry limit depth query)
    {aggregate : Aggregate} (haggregate : query.aggregate = some aggregate)
    (hkind : aggregate.isNullOverNothing = true ∨ aggregate.failsOverNothing = true) :
    reader.NullsNothing := by
  have hmatches := h.aggregate_matches
  rw [haggregate] at hmatches
  generalize hreduction : reader.reduction? = o at hmatches
  cases hmatches with
  | some hmatches =>
      rw [hmatches.isNull_eq, hmatches.fails_eq] at hkind
      exact ⟨_, hreduction, hkind⟩

/-- Where null constants are left out of the source of a subquery, what stands
in its place has the value of the subquery exactly if the subquery is null or
missing over nothing, or if the value is not null. -/
theorem inPlace_eval_eq_iff (hplain : registry.IsPlain)
    (hquery : reader.LowersTo registry limit (depth + 1) query) (hdepth : depth < limit)
    {source : Expr} (hsource : reader.source = some source)
    (hnull : ∀ e, .leftOut e ∈ source.parts reader.sourceNames → e.isNullConstant = true) :
    ∃ n, (source.inPlace reader).LowersTo registry limit depth n ∧
      ∀ env scope v v', (Node.ofQuery query).eval env scope = .ok v →
        n.eval env scope = .ok v' → (v' = v ↔ reader.NullsNothing ∨ v' ≠ .null) := by
  obtain ⟨_, hsome, hlower⟩ := hquery.source
  obtain rfl := Option.some.inj (hsource.symm.trans hsome)
  have hbranch := Expr.isBranch reader.sourceNames (Expr.Lowers.isSound ⟨_, hlower⟩)
  obtain ⟨n, hn, hvalue⟩ := hbranch.inPlace_standsFor hplain hquery hdepth hlower
  refine ⟨n, hn, fun env scope v v' hv hv' => ?_⟩
  -- only null can be the value of a branch that is left out
  have hcases : v' = v ∨ v' = .null ∧ query.presented env scope [] = .ok v := by
    have hmade := ofQuery_eval_eq_madeOf query env scope
    rw [hv, toOption_ok] at hmade
    rcases hvalue env scope with hsame | ⟨hsame, x, nx, hx, hnx, hreads⟩
    · rw [hv', ← hmade] at hsame
      exact .inl (Option.some.inj hsame)
    · obtain rfl := Expr.isNullConstant_iff.mp (hnull x hx)
      obtain rfl : .constant .null = nx := Except.ok.inj hnx
      rw [← hreads, Hql.Node.null_eval] at hsame hmade
      rw [hv'] at hsame
      exact .inr ⟨Option.some.inj hsame, toOption_eq_some.mp hmade.symm⟩
  constructor
  · intro hsame
    by_cases hv'null : v' = .null
    · obtain ⟨items, -, hitems⟩ := bind_eq_ok.mp ((Hql.Node.ofQuery_eval env scope query).symm.trans
        (hv.trans (congrArg Except.ok (hsame.symm.trans hv'null))))
      obtain ⟨aggregate, haggregate, hkind⟩ := Hql.Query.presented_eq_null hitems
      exact .inl (hquery.nullsNothing haggregate hkind)
    · exact .inr hv'null
  · intro hexact
    rcases hcases with hsame | ⟨hv'null, hnothing⟩
    · exact hsame
    · rcases hexact with hnulls | hpresent
      · rw [hv'null, hquery.isNullOverNothing hnulls env scope v hnothing]
      · exact absurd hv'null hpresent

end

end ObjectQuery
