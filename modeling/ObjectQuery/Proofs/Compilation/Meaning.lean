import ObjectQuery.Compilation.Basic
import ObjectQuery.Proofs.Expansion.Again
import ObjectQuery.Proofs.Lowering.Nothing

/-!
# The meaning of a compiled model

A model can be lowered as it is, and it can be expanded first. Both ways lead
to queries with the same results, unless the expansion left a branch out of a
source: then the subquery around the source is gone for this branch.

Whether that matters is a matter of the subquery alone, so it is asked of every
subquery that the expansion reaches. Of a source whose leaves are collections
nothing is left out. A null constant may be left out where the subquery is
null or missing over nothing.

## Main definitions

* `QueryModel.LeavesOutSafely` — what is left out of the source of a subquery
  does not matter.

## Main results

* `expandWithin_follows` — the expansion of a model that can be lowered succeeds,
  and its query follows that of the model.
* `compile_execute_iff` — the compiled query has the same results where all
  leaves are collections.
* `compile_execute_of_safe` — it keeps all results where null constants are left
  out safely; where they are not, the value of the subquery becomes null.
-/

namespace ObjectQuery

open Hql (Node Query Aggregate)
open Relation (TransGen)

/-- Where there are no results, the model has no value. -/
def QueryModel.MissesNothing (model : QueryModel) : Prop :=
  ∃ reduction, model.reduction? = some reduction ∧ reduction.failsOverNothing = true

/-- Whatever is left out of the source of the model does not matter: it is a
null constant, and the model is null or missing over nothing. A row or a
collection has to be missing, and its source known as a collection, so that
calls are distributed over it as before. -/
structure QueryModel.LeavesOutSafely (model : QueryModel) (source : Expr) : Prop where
  isNullConstant : ∀ e, .leftOut e ∈ source.parts model.sourceNames → e.isNullConstant = true
  nulls : model.NullsNothing
  misses : model.resultType.isRowOrCollection = true →
    model.MissesNothing ∧ source.type.isCollection = true

/-- If the source of the model is expanded, nothing is left out of it, or
nothing that matters. The latter is enough where `lax` allows results to be
gained. -/
def QueryModel.ExpandsSafely (lax : Bool) (model : QueryModel) : Prop :=
  ∀ source, model.source = some source → source.IsSound →
    source.expands model.sourceNames = true →
    (∀ e, .leftOut e ∉ source.parts model.sourceNames) ∨
      lax = true ∧ model.LeavesOutSafely source

section

variable {registry : Registry} {limit depth : Nat} {lax : Bool}
  {model model' : QueryModel} {query query' : Query}

/-! ## The expansion of one subquery -/

private theorem Hql.Aggregate.Follows.overNothing {aggregate aggregate' : Aggregate}
    (h : aggregate.Follows lax aggregate') :
    aggregate'.isNullOverNothing = aggregate.isNullOverNothing ∧
      aggregate'.failsOverNothing = aggregate.failsOverNothing := by
  cases h with
  | same => exact ⟨rfl, rfl⟩
  | all => exact ⟨rfl, rfl⟩
  | contains => exact ⟨rfl, rfl⟩

/-- A query that follows the query of a model has an aggregate of the same
kind. -/
theorem QueryModel.LowersTo.aggregate_of_follows (h : model.LowersTo registry limit depth query)
    (hfollows : query.Follows lax query') {reduction : ResultOperator}
    (hreduction : model.reduction? = some reduction) :
    ∃ aggregate, query'.aggregate = some aggregate ∧ reduction.MatchesOverNothing aggregate := by
  have hmatches := h.aggregate_matches
  rw [hreduction] at hmatches
  have haggregate := hfollows.aggregate
  revert hmatches haggregate
  generalize query.aggregate = o, query'.aggregate = o'
  intro hmatches haggregate
  cases hmatches with
  | some hmatches =>
      cases haggregate with
      | some hkinds =>
          obtain ⟨hnull, hfails⟩ := hkinds.overNothing
          exact ⟨_, rfl, hnull.trans hmatches.isNull_eq, hfails.trans hmatches.fails_eq⟩

/-- What was left out safely may be left out after the clauses of the subquery
are expanded. -/
theorem QueryModel.LeavesOutSafely.mayLeaveOut {source x : Expr}
    (h : model.LeavesOutSafely source) (hlax : lax = true)
    (hquery : model.LowersTo registry limit depth query) (hfollows : query.Follows lax query')
    (hloosens : model.resultType.Loosens lax model'.resultType)
    (hx : .leftOut x ∈ source.parts model.sourceNames) :
    model'.MayLeaveOut lax query' source x := by
  refine ⟨hlax, h.isNullConstant x hx, ?_, ?_⟩
  · obtain ⟨reduction, hreduction, hkind⟩ := h.nulls
    obtain ⟨aggregate, haggregate, hmatches⟩ := hquery.aggregate_of_follows hfollows hreduction
    rw [← hmatches.isNull_eq, ← hmatches.fails_eq] at hkind
    exact Hql.Query.isNullOverNothing haggregate hkind
  · intro hwhole
    rw [hloosens.isRowOrCollection_eq] at hwhole
    obtain ⟨⟨reduction, hreduction, hkind⟩, hcollection⟩ := h.misses hwhole
    obtain ⟨aggregate, haggregate, hmatches⟩ := hquery.aggregate_of_follows hfollows hreduction
    rw [← hmatches.fails_eq] at hkind
    exact ⟨Hql.Query.failsOverNothing haggregate hkind, hcollection⟩

/-- What takes the place of a subquery follows it. -/
theorem QueryModel.Becomes.follows (hplain : registry.IsPlain) {budget : Nat}
    {nested nested' : QueryModel} {source result : Expr}
    (h : nested.Becomes limit budget nested' source result)
    (hsafe : nested.ExpandsSafely lax) (hdepth : depth < limit)
    (hquery : nested.LowersTo registry limit (depth + 1) query)
    (hquery' : nested'.LowersTo registry limit (depth + 1) query')
    (hfollows : query.Follows lax query')
    (hloosens : nested.resultType.Loosens lax nested'.resultType) :
    (Expr.subquery nested).Follows registry limit lax depth depth result := by
  have hclauses : (Expr.subquery nested).Follows registry limit lax depth depth
      (Expr.subquery nested') := by
    have hn := Expr.lowersTo_subquery.mpr ⟨hdepth, query, hquery, rfl⟩
    have hn' := Expr.lowersTo_subquery.mpr ⟨hdepth, query', hquery', rfl⟩
    exact .of_nodes rfl hloosens hn hn' hfollows.ofQuery rfl rfl
  by_cases hexpands : source.expands nested'.sourceNames = true
  · obtain ⟨hsame, hnames⟩ := expandWithin_source h.expandWithin_eq
    have hsource : nested.source = some source := hsame.symm.trans h.source_eq
    have hsound := h.isSound_of_expands hexpands
    rw [h.result_eq, if_pos hexpands]
    refine hclauses.trans
      (subquery_follows_inPlace hplain hquery' hdepth h.source_eq hexpands fun x hx => ?_)
    rw [hnames] at hexpands hx
    rcases hsafe source hsource hsound hexpands with hnone | ⟨hlax, hleaves⟩
    · exact absurd hx (hnone x)
    · exact hleaves.mayLeaveOut hlax hquery hfollows hloosens hx
  · rw [h.result_eq_self (Bool.eq_false_iff.mpr hexpands)]
    exact hclauses

/-! ## The expansion of a model -/

/-- Where every subquery is replaced by what follows it, the model can be
expanded and its query follows. -/
theorem expandWithin_follows_of_nested (hplain : registry.IsPlain) {budget : Nat}
    (hquery : model.LowersTo registry limit depth query)
    (hnested : ∀ nested, model.Nests nested → ∃ result,
      (Expansion.replacement limit budget nested).outcome = .ok result ∧
        (Expr.subquery nested).Follows registry limit lax depth depth result) :
    ∃ model', (model.expandWithin limit budget).outcome = .ok model' ∧
      (∃ query', model'.LowersTo registry limit depth query' ∧ query.Follows lax query') ∧
        model.resultType.Loosens lax model'.resultType := by
  have hclause : ∀ e ∈ model.clauseExpressions, ∃ e', e.IsSound ∧
      e.Replaced (fun nested result =>
        (Expansion.replacement limit budget nested).outcome = .ok result) e' := by
    intro e he
    have hsound := (hquery.lowers he).isSound
    obtain ⟨e', he'⟩ := Expr.Replaced.exists_of_isSound hsound fun nested hholds => by
      obtain ⟨result, hresult, -⟩ := hnested nested ⟨e, he, hholds⟩
      exact ⟨result, hresult⟩
    exact ⟨e', hsound, he'⟩
  obtain ⟨model', hrelated⟩ := QueryModel.Related.exists_of_clauseExpressions hclause
  have hexpand : (model.expandWithin limit budget).outcome = .ok model' :=
    (@expandWithin_reaches_iff limit budget model model' Traced.Success.anyhow).mpr hrelated
  refine ⟨model', hexpand, QueryModel.Related.lowersTo (hrelated.mono ?_) ?_ hquery⟩
  · intro e he e' hreplaced hlowers
    refine hreplaced.2.follows hplain hlowers fun nested result hholds hresult => ?_
    obtain ⟨other, hother, hfollows⟩ := hnested nested ⟨e, he, hholds⟩
    obtain rfl : other = result := Except.ok.inj (hother.symm.trans hresult)
    exact hfollows
  · intro e _ hlowers
    exact .refl hlowers

/-- A model that can be lowered can be expanded, and its query follows. The
induction is on how deep subqueries may nest: lowering counts up to the limit
while the expansion counts down. -/
theorem expandWithin_follows (hplain : registry.IsPlain) {budget : Nat}
    (hbudget : depth + budget = limit) (hquery : model.LowersTo registry limit depth query)
    (hsafe : ∀ nested, TransGen QueryModel.Nests model nested → nested.ExpandsSafely lax) :
    ∃ model', (model.expandWithin limit budget).outcome = .ok model' ∧
      (∃ query', model'.LowersTo registry limit depth query' ∧ query.Follows lax query') ∧
        model.resultType.Loosens lax model'.resultType := by
  -- a subquery can be lowered one level deeper, so there is one more level
  have hlowers : ∀ {model : QueryModel} {query : Query} {depth : Nat},
      model.LowersTo registry limit depth query → ∀ nested, model.Nests nested →
        depth < limit ∧ ∃ inner, nested.LowersTo registry limit (depth + 1) inner := by
    intro model query depth hquery nested hnests
    obtain ⟨e, he, hholds⟩ := hnests
    obtain ⟨n, hn⟩ := (hquery.lowers he).of_holds hholds
    obtain ⟨hdepth, inner, hinner, -⟩ := Expr.lowersTo_subquery.mp hn
    exact ⟨hdepth, inner, hinner⟩
  induction budget generalizing model query depth with
  | zero =>
      refine expandWithin_follows_of_nested hplain hquery fun nested hnests => ?_
      have hdepth := (hlowers hquery nested hnests).1
      omega
  | succ budget ih =>
      refine expandWithin_follows_of_nested hplain hquery fun nested hnests => ?_
      obtain ⟨hdepth, inner, hinner⟩ := hlowers hquery nested hnests
      obtain ⟨nested', hexpand, ⟨inner', hinner', hfollows⟩, hloosens⟩ := ih (by omega) hinner
        fun deeper hdeeper => hsafe deeper (.head hnests hdeeper)
      obtain ⟨source, hsource, hsourceLowers⟩ := hinner'.source
      have hbecomes : nested.Becomes limit budget nested' source
          (if source.expands nested'.sourceNames then source.inPlace nested'
            else .subquery nested') :=
        ⟨hexpand, hsource, fun _ => Expr.Lowers.isSound ⟨_, hsourceLowers⟩, rfl⟩
      exact ⟨_, replacement_outcome_iff.mpr ⟨budget, nested', source, rfl, hbecomes⟩,
        hbecomes.follows hplain (hsafe nested (.single hnests)) hdepth hinner hinner' hfollows
          hloosens⟩

end

/-! ## Both stages -/

theorem compile_outcome_iff {registry : Registry} {limit : Nat} {model : QueryModel}
    {compiled : Compiled} :
    (model.compile registry limit).outcome = .ok compiled ↔
      (model.expand limit).outcome = .ok compiled.model ∧
        (compiled.model.toQuery registry limit).outcome = .ok compiled.query := by
  simp only [QueryModel.compile, QueryModel.normalize, Traced.outcome_bind_eq_ok,
    Traced.outcome_relabel, mapError_eq_ok_iff, Traced.outcome_emit, Traced.outcome_pure]
  constructor
  · intro h
    obtain ⟨model', ⟨_, -, expanded, hexpand, _, -, hsame⟩, query, hquery, _, -, hcompiled⟩ := h
    obtain rfl := Except.ok.inj hsame
    obtain rfl := Except.ok.inj hcompiled
    exact ⟨hexpand, hquery⟩
  · intro h
    obtain ⟨hexpand, hquery⟩ := h
    exact ⟨compiled.model, ⟨(), trivial, _, hexpand, (), trivial, rfl⟩, compiled.query, hquery,
      (), trivial, rfl⟩

/-- Where everything is left out safely, a model that can be lowered can be
compiled, and the results of its query are kept. -/
theorem compile_keeps {registry : Registry} (hplain : registry.IsPlain) {limit : Nat} {lax : Bool}
    {model : QueryModel} {query : Query}
    (hquery : (model.toQuery registry limit).outcome = .ok query)
    (hsafe : ∀ nested, TransGen QueryModel.Nests model nested → nested.ExpandsSafely lax) :
    ∃ compiled, (model.compile registry limit).outcome = .ok compiled ∧
      ∀ env, Keeps lax (query.execute env) (compiled.query.execute env) := by
  obtain ⟨model', hexpand, ⟨query', hquery', hfollows⟩, -⟩ := expandWithin_follows hplain
    (Nat.zero_add limit) (QueryModel.lower_eq_ok_iff.mp hquery) hsafe
  exact ⟨⟨model', query'⟩,
    compile_outcome_iff.mpr ⟨hexpand, QueryModel.lower_eq_ok_iff.mpr hquery'⟩,
    fun env => hfollows.run []⟩

/-! ### Collections only -/

/-- Where the sources that branch come down to collections, the query of a
compiled model has the same results as the query of the model itself: it
returns a value exactly if that one does. -/
theorem compile_execute_iff {limit : Nat} {model : QueryModel} {query : Query}
    (hleaves : ∀ nested, TransGen QueryModel.Nests model nested →
      ∀ source, nested.source = some source → source.isBranching = true →
        ∀ leaf ∈ source.leaves, leaf.type.isCollection = true)
    (hquery : (model.toQuery .withDefaults limit).outcome = .ok query) :
    ∃ compiled, (model.compile .withDefaults limit).outcome = .ok compiled ∧
      ∀ env value, compiled.query.execute env = .ok value ↔ query.execute env = .ok value := by
  have hsafe : ∀ nested, TransGen QueryModel.Nests model nested →
      nested.ExpandsSafely false := by
    intro nested hnested source hsource hsound hexpands
    have hbranching : source.isBranching = true := by
      by_contra hwhole
      rw [Expr.expands_eq_false (Bool.eq_false_iff.mpr hwhole)] at hexpands
      cases hexpands
    exact .inl (Expr.not_leftOut_of_leaves hsound
      (hleaves nested hnested source hsource hbranching))
  obtain ⟨compiled, hcompiled, hkeeps⟩ :=
    compile_keeps Registry.withDefaults_isPlain hquery hsafe
  refine ⟨compiled, hcompiled, fun env value => ?_⟩
  exact (Keeps.exact_iff.mp (hkeeps env) value).symm

/-- The subqueries reached from a selection that holds one subquery, in whose
clauses there is none. -/
theorem eq_of_transGen_perOrder {e : Expr} {inner nested : QueryModel}
    (hfirst : ∀ next, e.Holds next → next = inner) (hinner : ∀ deeper, ¬inner.Nests deeper)
    (h : TransGen QueryModel.Nests (perOrder e) nested) : nested = inner := by
  have hclause : ∀ next, (perOrder e).Nests next → next = inner := by
    intro next hnests
    obtain ⟨e', he', hholds⟩ := hnests
    obtain rfl : e' = e := List.mem_singleton.mp he'
    exact hfirst next hholds
  induction h with
  | single hnests => exact hclause _ hnests
  | tail _ hnests ih =>
      rw [ih] at hnests
      exact absurd hnests (hinner _)

private theorem eq_of_transGen_nests {inner nested : QueryModel}
    (hinner : ∀ deeper, ¬inner.Nests deeper)
    (h : TransGen QueryModel.Nests (perOrder (.subquery inner)) nested) : nested = inner :=
  eq_of_transGen_perOrder (fun _ hholds => Expr.holds_subquery.mp hholds) hinner h

/-- A count whose source is a coalesce in a conditional. -/
def countOfLeaves : QueryModel :=
  perOrder (.subquery (countLines (.conditional (orderProperty "Paid" .boolean)
    (some (.coalesce (some (orderLines "Lines")) (some (orderLines "Open"))))
    (some (orderLines "Archived")))))

/-- The query of a value for every order. -/
def perOrderQuery (select : Node) : Query :=
  ⟨.entity "Order", "o", [], none, none, [], some select, false, none, none, none⟩

/-- The query of one count of `countOfLeaves`. -/
def countOfLeavesQuery : Query :=
  ⟨.ifThenElse (.dot (.ident "o") "Paid")
    (.coalesce (.dot (.ident "o") "Lines") (.dot (.ident "o") "Open"))
    (.dot (.ident "o") "Archived"), "l", [], none, none, [], none, false, none, none, some .count⟩

/-- The three leaves of the source are collections. -/
theorem countOfLeaves_compile :
    (countOfLeaves.toQuery .withDefaults 8).outcome =
        .ok (perOrderQuery (.subquery countOfLeavesQuery)) ∧
      ∃ compiled, (countOfLeaves.compile .withDefaults 8).outcome = .ok compiled ∧
        ∀ env value, compiled.query.execute env = .ok value ↔
          (perOrderQuery (.subquery countOfLeavesQuery)).execute env = .ok value := by
  have hquery : (countOfLeaves.toQuery .withDefaults 8).outcome =
      .ok (perOrderQuery (.subquery countOfLeavesQuery)) := rfl
  refine ⟨hquery, compile_execute_iff ?_ hquery⟩
  intro nested hnested source hsource _ leaf hleaf
  obtain rfl := eq_of_transGen_nests (fun deeper hdeeper => by
    obtain ⟨e, he, -⟩ := hdeeper
    cases he) hnested
  obtain rfl := Option.some.inj hsource
  simp only [Expr.leaves, branchLeaves, orderLines, orderProperty, List.cons_append,
    List.nil_append, List.mem_cons, List.not_mem_nil, or_false] at hleaf
  rcases hleaf with rfl | rfl | rfl
  · rfl
  · rfl
  · rfl

/-! ### Null constants -/

/-- The results of a query are kept by compiling its model, if null constants
are left out of sources safely wherever something is left out. Where a null
constant is left out, what stands in place of the subquery keeps its value
exactly if the subquery is null or missing over nothing, or else the value is
not null. -/
theorem compile_execute_of_safe {limit : Nat} {model : QueryModel} {query : Query}
    (hquery : (model.toQuery .withDefaults limit).outcome = .ok query) :
    ((∀ nested, TransGen QueryModel.Nests model nested → nested.ExpandsSafely true) →
      ∃ compiled, (model.compile .withDefaults limit).outcome = .ok compiled ∧
        ∀ env value, query.execute env = .ok value →
          compiled.query.execute env = .ok value) ∧
    ∀ nested, TransGen QueryModel.Nests model nested →
      ∀ source, nested.source = some source →
        (∀ e, .leftOut e ∈ source.parts nested.sourceNames → e.isNullConstant = true) →
        ∀ depth inner, depth < limit → nested.LowersTo .withDefaults limit (depth + 1) inner →
          ∃ n, (source.inPlace nested).LowersTo .withDefaults limit depth n ∧
            ∀ env scope v v', (Node.ofQuery inner).eval env scope = .ok v →
              n.eval env scope = .ok v' → (v' = v ↔ nested.NullsNothing ∨ v' ≠ .null) := by
  refine ⟨fun hsafe => ?_, ?_⟩
  · obtain ⟨compiled, hcompiled, hkeeps⟩ :=
      compile_keeps Registry.withDefaults_isPlain hquery hsafe
    exact ⟨compiled, hcompiled, fun env value => Keeps.lax_iff.mp (hkeeps env) value⟩
  · intro nested _ source hsource hnull depth inner hdepth hinner
    exact inPlace_eval_eq_iff Registry.withDefaults_isPlain hinner hdepth hsource hnull

/-- The lines of an order, or none where it is not paid. -/
def linesIfPaid : Expr :=
  .conditional (orderProperty "Paid" .boolean) (some (orderLines "Lines"))
    (some (.constant .null))

/-- The sum of the amounts of the lines. -/
def sumOfAmounts (source : Expr) : QueryModel :=
  { QueryModel.ofSource "l" (.entity "Line") source with
    selector := some (.member (.source "l" (.entity "Line")) "Amount" .decimal)
    operators := [.sum] }

/-- The query of one sum over `linesIfPaid`. -/
def sumIfPaidQuery : Query :=
  ⟨.ifThenElse (.dot (.ident "o") "Paid") (.dot (.ident "o") "Lines") (.constant .null), "l",
    [], none, none, [], some (.dot (.ident "l") "Amount"), false, none, none, some .sum⟩

/-- The sum over nothing is null, so a null constant may be left out. -/
theorem sumIfPaid_compile :
    ((perOrder (.subquery (sumOfAmounts linesIfPaid))).toQuery .withDefaults 8).outcome =
        .ok (perOrderQuery (.subquery sumIfPaidQuery)) ∧
      (∃ compiled,
        ((perOrder (.subquery (sumOfAmounts linesIfPaid))).compile .withDefaults 8).outcome =
          .ok compiled ∧
        ∀ env value, (perOrderQuery (.subquery sumIfPaidQuery)).execute env = .ok value →
          compiled.query.execute env = .ok value) ∧
      ∃ n, (linesIfPaid.inPlace (sumOfAmounts linesIfPaid)).LowersTo .withDefaults 8 0 n ∧
        ∀ env scope v v', (Node.ofQuery sumIfPaidQuery).eval env scope = .ok v →
          n.eval env scope = .ok v' → v' = v := by
  have hquery : ((perOrder (.subquery (sumOfAmounts linesIfPaid))).toQuery .withDefaults
      8).outcome = .ok (perOrderQuery (.subquery sumIfPaidQuery)) := rfl
  have hinner : (sumOfAmounts linesIfPaid).LowersTo .withDefaults 8 1 sumIfPaidQuery :=
    QueryModel.lower_eq_ok_iff.mp rfl
  have hparts : linesIfPaid.parts (sumOfAmounts linesIfPaid).sourceNames =
      [.hoisted (orderProperty "Paid" .boolean), .wrapped (orderLines "Lines"),
        .leftOut (.constant .null)] := rfl
  have hnull : ∀ e, .leftOut e ∈ linesIfPaid.parts (sumOfAmounts linesIfPaid).sourceNames →
      e.isNullConstant = true := by
    intro e he
    rw [hparts] at he
    obtain rfl : e = .constant .null := by simpa using he
    rfl
  have hnulls : (sumOfAmounts linesIfPaid).NullsNothing := ⟨.sum, rfl, .inl rfl⟩
  obtain ⟨hcompile, hexact⟩ := compile_execute_of_safe hquery
  refine ⟨hquery, hcompile ?_, ?_⟩
  · intro nested hnested source hsource _ _
    obtain rfl := eq_of_transGen_nests (fun deeper hdeeper => by
      obtain ⟨e, he, hholds⟩ := hdeeper
      obtain rfl := List.mem_singleton.mp he
      simp at hholds) hnested
    obtain rfl := Option.some.inj hsource
    exact .inr ⟨rfl, hnull, hnulls, fun hwhole => by cases hwhole⟩
  · have hnests : (perOrder (.subquery (sumOfAmounts linesIfPaid))).Nests
        (sumOfAmounts linesIfPaid) := ⟨_, List.mem_singleton_self _, by simp⟩
    obtain ⟨n, hn, hvalue⟩ := hexact (sumOfAmounts linesIfPaid) (.single hnests) linesIfPaid rfl
      hnull 0 sumIfPaidQuery (by decide) hinner
    exact ⟨n, hn, fun env scope v v' hv hv' =>
      (hvalue env scope v v' hv hv').mpr (.inl hnulls)⟩

/-- The query of one count over `linesIfPaid`. -/
def countIfPaidQuery : Query :=
  ⟨.ifThenElse (.dot (.ident "o") "Paid") (.dot (.ident "o") "Lines") (.constant .null), "l",
    [], none, none, [], none, false, none, none, some .count⟩

/-- The query of one count over the lines of an order. -/
def countQuery : Query :=
  ⟨.dot (.ident "o") "Lines", "l", [], none, none, [], none, false, none, none, some .count⟩

/-- One order, which is not paid and has one line. -/
def unpaidOrder : Environment :=
  ⟨⟨[("Order", [[("Paid", .bool false), ("Lines", .array [.object []])]])]⟩, []⟩

/-- The count over nothing is not null: where the null constant is counted
there are no lines, and where it is left out there is no count. -/
theorem countIfPaid_execute_ne :
    ((perOrder (.subquery (countLines linesIfPaid))).toQuery .withDefaults 8).outcome =
        .ok (perOrderQuery (.subquery countIfPaidQuery)) ∧
      Except.map Compiled.query
          ((perOrder (.subquery (countLines linesIfPaid))).compile .withDefaults 8).outcome =
        .ok (perOrderQuery (.ifThenElse (.dot (.ident "o") "Paid") (.subquery countQuery)
          (.constant .null))) ∧
      (perOrderQuery (.subquery countIfPaidQuery)).execute unpaidOrder =
        .ok (.list [.integer 0]) ∧
      (perOrderQuery (.ifThenElse (.dot (.ident "o") "Paid") (.subquery countQuery)
        (.constant .null))).execute unpaidOrder = .ok (.list [.null]) := by
  refine ⟨rfl, rfl, ?_, ?_⟩
  · rw [Hql.Query.execute, Hql.Query.run_eq]
    simp only [perOrderQuery, countIfPaidQuery, Hql.Node.eval, Hql.Query.run_eq,
      Hql.Query.selected, Hql.sortScopes_nil]
    rfl
  · rw [Hql.Query.execute, Hql.Query.run_eq]
    simp only [perOrderQuery, Hql.Query.selected, Hql.sortScopes_nil]
    rfl

end ObjectQuery
