import ObjectQuery.Proofs.Lowering.Existence

/-!
# The kind of a result

Of what kind the result of a model is can be told before it runs: its static
type goes by the last result operator that leaves a single value. The engine
goes by the aggregate of the query, which lowering has made of the last result
operator, unless the query as a subquery only asks whether there is a row; then
it has become a test. In all these ways a model without such an operator
results in a list, a number of rows is an integer, a question is answered by a
truth value, and an average is a decimal or null.

A number of rows is an integer of a word, so it is exact as long as a word can
hold it.

## Main definitions

* `QueryModel.HasValue` — a result of a model, on its own or as a subquery.

## Main results

* `QueryModel.HasValue.exists_query` — where a result comes from.
* `QueryModel.value_kind` — the kind of a result.
-/

namespace ObjectQuery

open Hql (Node Query Aggregate)

namespace Hql

variable {env : Environment} {outer : Scope}

/-! ## Aggregates -/

/-- What an aggregate makes of a number of rows; without one they are listed. -/
def Aggregate.Yields (rows : Nat) : Option Aggregate → Value → Prop
  | none, v => ∃ items, v = .list items
  | some .count, v => v = .ofCount rows
  | some .any, v | some (.all _), v | some (.contains _), v => ∃ b, v = .boolean b
  | some .average, v => v = .null ∨ ∃ x, v = .decimal x
  | some _, _ => True

private theorem runAggregate_yields {aggregate : Option Aggregate} {rows : List Row} {v : Value}
    (h : runAggregate env aggregate rows outer = .ok v) :
    Aggregate.Yields rows.length aggregate v := by
  cases aggregate with
  | none => exact ⟨_, (Except.ok.inj h).symm⟩
  | some aggregate =>
      cases aggregate with
      | count => exact (Except.ok.inj h).symm
      | any => exact ⟨_, (Except.ok.inj h).symm⟩
      | all predicate =>
          rw [runAggregate] at h
          obtain ⟨b, -, h⟩ := bind_eq_ok.mp h
          exact ⟨b, (Except.ok.inj h).symm⟩
      | contains item =>
          rw [runAggregate] at h
          obtain ⟨w, -, h⟩ := bind_eq_ok.mp h
          exact ⟨_, (Except.ok.inj h).symm⟩
      | average => exact Value.average_eq_ok h
      | sum | min | max | first | single => trivial

/-- As a subquery a query has the value that it has on its own, or it asks whether there is a
row. -/
theorem Node.ofQuery_eval_cases {q : Query} {v : Value}
    (h : (ofQuery q).eval env outer = .ok v) :
    q.run env outer = .ok v ∨ q.aggregate = some .any ∧ ∃ b, v = .boolean b := by
  rw [ofQuery_eq] at h
  cases hasks : q.asksExistence with
  | false =>
      rw [hasks, if_neg Bool.false_ne_true, eval] at h
      exact .inl h
  | true =>
      rw [hasks, if_pos rfl, nonempty_eval] at h
      obtain ⟨w, -, rfl⟩ := map_eq_ok.mp h
      have hany : q.aggregate = some .any := by
        unfold Query.asksExistence at hasks
        cases haggregate : q.aggregate with
        | none =>
            rw [haggregate] at hasks
            cases hasks
        | some aggregate =>
            rw [haggregate] at hasks
            cases aggregate <;> first | rfl | cases hasks
      refine .inr ⟨hany, ?_⟩
      cases w <;> exact ⟨_, rfl⟩

end Hql

/-! ## Models -/

variable {registry : Registry} {limit : Nat} {env : Environment} {model : QueryModel}

/-- A model has a value in a scope, where so many subqueries are around its clauses: on its own,
or as a subquery. -/
inductive QueryModel.HasValue (registry : Registry) (limit : Nat) (env : Environment)
    (model : QueryModel) : Nat → Scope → Value → Prop
  | alone {query : Query} {v : Value} (hquery : (model.toQuery registry limit).outcome = .ok query)
    (hvalue : query.execute env = .ok v) : HasValue registry limit env model 0 [] v
  | nested {depth : Nat} {node : Node} {scope : Scope} {v : Value}
    (hnode : ((Expr.subquery model).lower registry limit depth).outcome = .ok node)
    (hvalue : node.eval env scope = .ok v) : HasValue registry limit env model (depth + 1) scope v

namespace QueryModel

variable {depth : Nat} {scope : Scope} {v : Value}

/-- A value of a model is that of its query, or its query asks whether there is a row. -/
theorem HasValue.exists_query (h : model.HasValue registry limit env depth scope v) :
    ∃ query, model.LowersTo registry limit depth query ∧
      (query.run env scope = .ok v ∨ query.aggregate = some .any ∧ ∃ b, v = .boolean b) := by
  cases h with
  | @alone query _ hquery hvalue => exact ⟨query, lower_eq_ok_iff.mp hquery, .inl hvalue⟩
  | nested hnode hvalue =>
      obtain ⟨-, query, hquery, rfl⟩ := Expr.lowersTo_subquery.mp hnode
      exact ⟨query, hquery, Node.ofQuery_eval_cases hvalue⟩

/-- A value of a model is what the aggregate of its query yields. -/
theorem HasValue.yields (h : model.HasValue registry limit env depth scope v) :
    ∃ query, model.LowersTo registry limit depth query ∧
      ((∃ rows, query.page env scope = .ok rows ∧
        Aggregate.Yields rows.length query.aggregate v) ∨
        query.aggregate = some .any ∧ ∃ b, v = .boolean b) := by
  obtain ⟨query, hquery, hvalue⟩ := h.exists_query
  refine ⟨query, hquery, hvalue.imp_left fun hrun => ?_⟩
  rw [Query.run_eq_page] at hrun
  obtain ⟨rows, hrows, hrun⟩ := bind_eq_ok.mp hrun
  exact ⟨rows, hrows, Hql.runAggregate_yields hrun⟩

/-- Without an operator that leaves a single value a model lists its results. -/
theorem HasValue.eq_list (h : model.HasValue registry limit env depth scope v)
    (hlist : ∀ operator ∈ model.operators, operator.isScalar = false) :
    ∃ items, v = .list items := by
  obtain ⟨query, hquery, ⟨rows, -, hyields⟩ | ⟨hany, -⟩⟩ := h.yields
  · rw [hquery.aggregate_eq_none hlist] at hyields
    exact hyields
  · cases (hquery.aggregate_eq_none hlist).symm.trans hany

/-- The last operator that leaves a single value makes the value, unless the query only asks
whether there is a row. -/
theorem HasValue.reduced {reduction : ResultOperator}
    (h : model.HasValue registry limit env depth scope v)
    (hreduction : model.reduction? = some reduction) :
    ∃ query aggregate, model.LowersTo registry limit depth query ∧
      reduction.ReducesTo registry limit depth aggregate ∧
      ((∃ rows, query.page env scope = .ok rows ∧
        Aggregate.Yields rows.length (some aggregate) v) ∨
        aggregate = .any ∧ ∃ b, v = .boolean b) := by
  obtain ⟨query, hquery, hvalue⟩ := h.yields
  have hreduces := hquery.aggregate_reduces
  rw [hreduction] at hreduces
  generalize query.aggregate = aggregate at hreduces hvalue
  cases hreduces with
  | @some _ aggregate hstage =>
      exact ⟨query, aggregate, hquery, hstage,
        hvalue.imp_right fun hany => ⟨Option.some.inj hany.1, hany.2⟩⟩

/-- The number of the results of a model. -/
theorem HasValue.eq_ofCount {reduction : ResultOperator}
    (h : model.HasValue registry limit env depth scope v)
    (hreduction : model.reduction? = some reduction)
    (hcount : reduction = .count ∨ reduction = .longCount) :
    ∃ query rows, model.LowersTo registry limit depth query ∧
      query.page env scope = .ok rows ∧ v = .ofCount rows.length := by
  obtain ⟨query, aggregate, hquery, hstage, hvalue⟩ := h.reduced hreduction
  obtain rfl : Aggregate.count = aggregate := by
    rcases hcount with rfl | rfl <;> exact Stage.reduce.inj (Except.ok.inj hstage)
  obtain ⟨rows, hrows, hyields⟩ | ⟨hany, -⟩ := hvalue
  · exact ⟨query, rows, hquery, hrows, hyields⟩
  · cases hany

/-- The answer to a question about the results of a model. -/
theorem HasValue.eq_boolean {reduction : ResultOperator}
    (h : model.HasValue registry limit env depth scope v)
    (hreduction : model.reduction? = some reduction)
    (hasks : reduction = .any ∨ (∃ predicate, reduction = .all predicate) ∨
      ∃ item, reduction = .contains item) :
    ∃ b, v = .boolean b := by
  obtain ⟨query, aggregate, -, hstage, ⟨rows, -, hyields⟩ | ⟨-, hboolean⟩⟩ :=
    h.reduced hreduction
  · obtain rfl | ⟨predicate, rfl⟩ | ⟨item, rfl⟩ := hasks
    · obtain rfl := Stage.reduce.inj (Except.ok.inj hstage)
      exact hyields
    · obtain ⟨n, -, hreduce⟩ := Traced.outcome_map_eq_ok.mp hstage
      obtain rfl := Stage.reduce.inj hreduce
      exact hyields
    · obtain ⟨n, -, hreduce⟩ := Traced.outcome_map_eq_ok.mp hstage
      obtain rfl := Stage.reduce.inj hreduce
      exact hyields
  · exact hboolean

/-- The average of the results of a model. -/
theorem HasValue.eq_decimal (h : model.HasValue registry limit env depth scope v)
    (hreduction : model.reduction? = some .average) : v = .null ∨ ∃ x, v = .decimal x := by
  obtain ⟨query, aggregate, -, hstage, hvalue⟩ := h.reduced hreduction
  obtain rfl : Aggregate.average = aggregate := Stage.reduce.inj (Except.ok.inj hstage)
  obtain ⟨rows, -, hyields⟩ | ⟨hany, -⟩ := hvalue
  · exact hyields
  · cases hany

/-- The static type of a model and the value of the model, on its own or as a subquery, are of
the same kind: a list where no operator leaves a single value, and otherwise as the last one of
these operators has it. -/
theorem value_kind (h : model.HasValue registry limit env depth scope v) :
    ((∀ operator ∈ model.operators, operator.isScalar = false) →
      model.resultType = .collection model.elementType ∧ ∃ items, v = .list items) ∧
    ∀ reduction, model.reduction? = some reduction →
      (reduction = .count ∨ reduction = .longCount → model.resultType = .integer ∧
        ∃ query rows, model.LowersTo registry limit depth query ∧
          query.page env scope = .ok rows ∧ v = .ofCount rows.length ∧
          ((rows.length : Int) ≤ Int64.maxValue.toInt →
            ∃ n : Int64, v = .integer n ∧ 0 ≤ n.toInt ∧ n.toInt = rows.length)) ∧
      (reduction = .any ∨ (∃ predicate, reduction = .all predicate) ∨
          (∃ item, reduction = .contains item) →
        model.resultType = .boolean ∧ ∃ b, v = .boolean b) ∧
      (reduction = .average → model.resultType = .decimal ∧ (v = .null ∨ ∃ x, v = .decimal x)) := by
  refine ⟨fun hlist => ⟨?_, h.eq_list hlist⟩, fun reduction hreduction => ⟨?_, ?_, ?_⟩⟩
  · rw [resultType_eq, reduction?_eq_none_iff.mpr hlist]
    rfl
  · intro hcount
    obtain ⟨query, rows, hquery, hrows, hvalue⟩ := h.eq_ofCount hreduction hcount
    refine ⟨?_, query, rows, hquery, hrows, hvalue, fun hfits => ?_⟩
    · rw [resultType_eq, hreduction]
      rcases hcount with rfl | rfl <;> rfl
    · obtain ⟨n, hn, hexact⟩ := Value.ofCount_exact hfits
      exact ⟨n, hvalue.trans hn, by omega, hexact⟩
  · intro hasks
    refine ⟨?_, h.eq_boolean hreduction hasks⟩
    rw [resultType_eq, hreduction]
    obtain rfl | ⟨predicate, rfl⟩ | ⟨item, rfl⟩ := hasks <;> rfl
  · rintro rfl
    refine ⟨?_, h.eq_decimal hreduction⟩
    rw [resultType_eq, hreduction]
    rfl

/-- The rows of the further amounts. -/
def furtherRows : List Row :=
  [2, 3, 4, 5].map fun n : Int64 => ⟨.integer n, [("e", .row [("Amount", .integer n.toInt)])]⟩

private theorem furtherAmountsQuery_run (aggregate : Option Aggregate) :
    ({ furtherAmountsQuery with aggregate := aggregate } : Query).run sixAmounts [] =
      Hql.runAggregate sixAmounts aggregate furtherRows [] := by
  rw [Query.run_eq]
  simp only [Query.selected, furtherAmountsQuery, Query.ofSource, Hql.sortScopes_nil]
  rfl

/-- The further amounts are listed, and as a subquery they are counted and asked for. -/
theorem furtherAmounts_value_kind :
    furtherAmounts.HasValue .withDefaults 8 sixAmounts 0 [] (.list ([2, 3, 4, 5].map .integer)) ∧
      furtherAmounts.resultType = .collection .integer ∧
      (furtherAmounts.after (.operator .longCount)).HasValue .withDefaults 8 sixAmounts 1 []
        (.integer 4) ∧
      (furtherAmounts.after (.operator .longCount)).resultType = .integer ∧
      (furtherAmounts.after (.operator .any)).HasValue .withDefaults 8 sixAmounts 1 []
        (.boolean true) ∧
      (furtherAmounts.after (.operator .any)).resultType = .boolean := by
  have hlist : furtherAmounts.HasValue .withDefaults 8 sixAmounts 0 []
      (.list ([2, 3, 4, 5].map .integer)) := by
    have hquery : (furtherAmounts.toQuery .withDefaults 8).outcome = .ok furtherAmountsQuery := rfl
    exact .alone hquery (furtherAmountsQuery_run none)
  have hcount : (furtherAmounts.after (.operator .longCount)).HasValue .withDefaults 8 sixAmounts
      1 [] (.integer 4) := by
    have hnode : ((Expr.subquery (furtherAmounts.after (.operator .longCount))).lower .withDefaults
        8 0).outcome = .ok (.subquery { furtherAmountsQuery with aggregate := some .count }) := rfl
    refine .nested hnode ?_
    rw [Node.eval, furtherAmountsQuery_run]
    rfl
  have hany : (furtherAmounts.after (.operator .any)).HasValue .withDefaults 8 sixAmounts
      1 [] (.boolean true) := by
    have hnode : ((Expr.subquery (furtherAmounts.after (.operator .any))).lower .withDefaults 8
        0).outcome = .ok (.subquery { furtherAmountsQuery with aggregate := some .any }) := rfl
    refine .nested hnode ?_
    rw [Node.eval, furtherAmountsQuery_run]
    rfl
  have hoperators : ∀ operator ∈ furtherAmounts.operators, operator.isScalar = false := by
    intro operator hoperator
    rcases List.mem_pair.mp hoperator with rfl | rfl <;> rfl
  have hcounted := ((value_kind hcount).2 .longCount rfl).1 (.inr rfl)
  have hasked := ((value_kind hany).2 .any rfl).2.1 (.inl rfl)
  obtain ⟨hlisted, -⟩ := (value_kind hlist).1 hoperators
  exact ⟨hlist, hlisted, hcount, hcounted.1, hany, hasked.1⟩

end QueryModel
end ObjectQuery
