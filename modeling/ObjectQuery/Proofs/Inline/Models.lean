import ObjectQuery.Proofs.Inline.Lowering

/-!
# Inlining in the queries of models

Where inlining before lowering comes to the same as after it for every
expression of a model, it does for the model. The tail of the query is built
up operator by operator, and inlining commutes with each step.

Subqueries are models that stand deeper. So what holds of expressions without
subqueries holds of all expressions and models, level by level.

## Main definitions

* `Stage.inline`, `Tail.inline` — a literal in the place of a parameter.

## Main results

* `Expr.Lowers.inlined`, `QueryModel.LowersTo.inlined` — inlining commutes with
  lowering, up to queries that follow each other.
-/

namespace ObjectQuery

open Hql (Node Query Aggregate)

variable {registry : Registry} {limit depth : Nat} {name : String} {value : Literal}

/-! ## Tails -/

/-- The stage with a literal in the place of a parameter. -/
def Stage.inline (name : String) (value : Literal) : Stage → Stage
  | .distinct => .distinct
  | .skip count => .skip (count.inline name value)
  | .take count => .take (count.inline name value)
  | .reduce aggregate => .reduce (aggregate.inline name value)

/-- The tail with a literal in the place of a parameter. -/
def Tail.inline (name : String) (value : Literal) (tail : Tail) : Tail :=
  ⟨tail.distinct, tail.skip.map (Node.inline name value), tail.take.map (Node.inline name value),
    tail.aggregate.map (Aggregate.inline name value)⟩

private theorem Stage.inline_kind (stage : Stage) :
    (stage.inline name value).kind = stage.kind := by
  cases stage <;> rfl

namespace Tail

/-- The step lemma: inlining commutes with a further stage. -/
theorem inline_after (tail : Tail) (stage : Stage) :
    (tail.after stage).inline name value =
      (tail.inline name value).after (stage.inline name value) := by
  obtain ⟨distinct, skip, take, aggregate⟩ := tail
  cases stage with
  | distinct => rfl
  | reduce aggregate => rfl
  | skip count =>
      cases skip with
      | none => rfl
      | some previous =>
          simp only [after, skipping, inline, Stage.inline, Option.map_some, Node.inline]
  | take count =>
      cases take with
      | none => rfl
      | some previous =>
          simp only [after, taking, inline, Stage.inline, Option.map_some, Node.inline_least]

/-- The run lemma: inlining commutes with several stages. -/
theorem inline_foldl (tail : Tail) (stages : List Stage) :
    (stages.foldl after tail).inline name value =
      (stages.map (Stage.inline name value)).foldl after (tail.inline name value) := by
  induction stages generalizing tail with
  | nil => rfl
  | cons stage rest ih =>
      rw [List.foldl_cons, List.map_cons, List.foldl_cons, ih, inline_after]

private theorem inline_admitsAll {stages : List Stage} (h : empty.AdmitsAll stages) :
    empty.AdmitsAll (stages.map (Stage.inline name value)) := by
  have hkinds : (stages.map (Stage.inline name value)).map Stage.kind = stages.map Stage.kind := by
    rw [List.map_map]
    congr 1
    funext stage
    exact stage.inline_kind
  rw [admitsAll_iff] at h ⊢
  rw [hkinds]
  exact ⟨fun stage _ => empty_admits stage, h.2⟩

end Tail

/-! ## Operators -/

/-- The stage of an operator with a parameter inlined. -/
theorem ResultOperator.inline_stage {operator : ResultOperator} {stage : Stage}
    (h : ∀ e, operator.operand? = some e → e.Lowers registry limit depth →
      e.LowersInlined registry limit depth name value)
    (hstage : (operator.stage registry limit depth).outcome = .ok stage) :
    ∃ stage', ((operator.inline name value).stage registry limit depth).outcome = .ok stage' ∧
      (stage.inline name value).Follows false stage' := by
  have hoperand : ∀ {e : Expr} {f : Node → Stage},
      (∀ {n n' : Node}, (n.inline name value).Follows false n' →
        ((f n).inline name value).Follows false (f n')) →
      (e.Lowers registry limit depth → e.LowersInlined registry limit depth name value) →
      (f <$> e.lower registry limit depth).outcome = .ok stage →
      ∃ stage', (f <$> (e.inline name value).lower registry limit depth).outcome = .ok stage' ∧
        (stage.inline name value).Follows false stage' := by
    intro e f hf hinlined hlower
    obtain ⟨n, hn, rfl⟩ := Traced.outcome_map_eq_ok.mp hlower
    obtain ⟨n', hn', hnodes⟩ := (hinlined ⟨n, hn⟩).follow hn
    exact ⟨f n', Traced.outcome_map_eq_ok.mpr ⟨n', hn', rfl⟩, hf hnodes⟩
  cases operator with
  | take count => exact hoperand .take (h count rfl) hstage
  | skip count => exact hoperand .skip (h count rfl) hstage
  | all predicate => exact hoperand (fun hn => .reduce (.all hn)) (h predicate rfl) hstage
  | contains item => exact hoperand (fun hn => .reduce (.contains hn)) (h item rfl) hstage
  | distinct =>
      obtain rfl := Except.ok.inj hstage
      exact ⟨_, rfl, .distinct⟩
  | _ =>
      obtain rfl := Except.ok.inj hstage
      exact ⟨_, rfl, .reduce (.same _)⟩

/-- The tail of operators with a parameter inlined. -/
theorem inline_lowerOperators {operators : List ResultOperator} {tail : Tail}
    (h : ∀ operator ∈ operators, ∀ e, operator.operand? = some e →
      e.Lowers registry limit depth → e.LowersInlined registry limit depth name value)
    (htail : (lowerOperators registry limit depth .empty operators).outcome = .ok tail) :
    ∃ tail', (lowerOperators registry limit depth .empty
        (operators.map (ResultOperator.inline name value))).outcome = .ok tail' ∧
      (tail.inline name value).Follows false tail' := by
  obtain ⟨stages, hstages, hadmits, rfl⟩ := lowerOperators_eq_ok.mp htail
  obtain ⟨stages', hstages', hfollow⟩ := forall₂_follow_map (ResultOperator.inline name value)
    (Stage.inline name value) (mapM_stage_outcome_iff.mp hstages)
    (U := fun operator stage => (operator.stage registry limit depth).outcome = .ok stage)
    (T := Stage.Follows false) fun operator hoperator stage hstage =>
      ResultOperator.inline_stage (h operator hoperator) hstage
  have hempty : (Tail.empty.inline name value).Follows false Tail.empty :=
    ⟨rfl, .none, .none, .none⟩
  obtain ⟨hadmits', htails⟩ := hempty.foldl hfollow (Tail.inline_admitsAll hadmits)
  rw [← Tail.inline_foldl] at htails
  exact ⟨_, lowerOperators_eq_ok.mpr ⟨stages', mapM_stage_outcome_iff.mpr hstages', hadmits', rfl⟩,
    htails⟩

/-! ## Clauses -/

/-- A clause that may be absent, with a parameter inlined. -/
theorem inline_lowerOption {o : Option Expr} {p : Option Node}
    (h : ∀ e, o = some e → e.Lowers registry limit depth →
      e.LowersInlined registry limit depth name value)
    (hp : (lowerOption registry limit depth o).outcome = .ok p) :
    ∃ p', (lowerOption registry limit depth (o.map (Expr.inline name value))).outcome = .ok p' ∧
      Option.Rel (Node.Follows false) (p.map (Node.inline name value)) p' := by
  have hrel := lowerOption_outcome_iff.mp hp
  cases hrel with
  | none => exact ⟨none, rfl, .none⟩
  | some hn =>
      obtain ⟨n', hn', hnodes⟩ := (h _ rfl ⟨_, hn⟩).follow hn
      exact ⟨some n', lowerOption_outcome_iff.mpr (.some hn'), .some hnodes⟩

/-- Orderings with a parameter inlined. -/
theorem inline_lowerOrderings {orderings : List OrderClause} {ks : List Hql.OrderKey}
    (h : ∀ o ∈ orderings, o.key.Lowers registry limit depth →
      o.key.LowersInlined registry limit depth name value)
    (hks : (lowerOrderings registry limit depth orderings).outcome = .ok ks) :
    ∃ ks', (lowerOrderings registry limit depth
        (orderings.map (OrderClause.inline name value))).outcome = .ok ks' ∧
      List.Forall₂ (Hql.OrderKey.Follows false) (ks.map (Hql.OrderKey.inline name value)) ks' := by
  obtain ⟨ks', hks', hfollow⟩ := forall₂_follow_map (OrderClause.inline name value)
    (Hql.OrderKey.inline name value) (lowerOrderings_outcome_iff.mp hks)
    (U := OrderClause.LowersTo registry limit depth) (T := Hql.OrderKey.Follows false) (by
      intro o ho k hk
      obtain ⟨n', hn', hnodes⟩ := (h o ho ⟨_, hk.key⟩).follow hk.key
      exact ⟨⟨n', o.direction⟩, ⟨hn', rfl⟩, hnodes, hk.direction⟩)
  exact ⟨ks', lowerOrderings_outcome_iff.mpr hks', hfollow⟩

/-- Joins with a parameter inlined. -/
theorem inline_lowerJoins (hscalar : value.isScalar = true) {joins : List JoinClause}
    {ns : List Hql.Join}
    (h : ∀ j ∈ joins, ∀ e ∈ [j.sequence, j.outerKey, j.innerKey], e.Lowers registry limit depth →
      e.LowersInlined registry limit depth name value)
    (hns : (lowerJoins registry limit depth joins).outcome = .ok ns) :
    ∃ ns', (lowerJoins registry limit depth
        (joins.map (JoinClause.inline name value))).outcome = .ok ns' ∧
      List.Forall₂ (Hql.Join.Follows false) (ns.map (Hql.Join.inline name value)) ns' := by
  obtain ⟨ns', hns', hfollow⟩ := forall₂_follow_map (JoinClause.inline name value)
    (Hql.Join.inline name value) (lowerJoins_outcome_iff.mp hns)
    (U := JoinClause.LowersTo registry limit depth) (T := Hql.Join.Follows false) (by
      intro j hj join hjoin
      obtain ⟨a, b, ha, hb, hon⟩ := hjoin.on
      obtain ⟨n', hn', hsource⟩ := (h j hj _ (by simp) ⟨_, hjoin.source⟩).follow hjoin.source
      obtain ⟨a', ha', houter⟩ := (h j hj _ (by simp) ⟨_, ha⟩).follow ha
      obtain ⟨b', hb', hinner⟩ := (h j hj _ (by simp) ⟨_, hb⟩).follow hb
      refine ⟨⟨n', j.item, .equality a' b'⟩, ⟨hn', rfl, a', b', ha', hb', rfl⟩, hsource,
        hjoin.name, ?_⟩
      show (join.on.inline name value).Follows false (.equality a' b')
      rw [hon, Node.inline_equality hscalar]
      exact houter.equality hinner)
  exact ⟨ns', lowerJoins_outcome_iff.mpr hns', hfollow⟩

/-! ## Models -/

private theorem Hql.Query.inline_eq (q : Query) :
    q.inline name value = {
      source := q.source.inline name value
      name := q.name
      joins := q.joins.map (Join.inline name value)
      filter := q.filter.map (Node.inline name value)
      having := q.having.map (Node.inline name value)
      order := q.order.map (OrderKey.inline name value)
      select := q.select.map (Node.inline name value)
      distinct := q.distinct
      skip := q.skip.map (Node.inline name value)
      take := q.take.map (Node.inline name value)
      aggregate := q.aggregate.map (Aggregate.inline name value) } := by
  cases q
  simp only [inline, inlineJoins_eq, inlineOption_eq, inlineOrder_eq, inlineAggregate_eq]

section

variable {model : QueryModel} {query : Query} (hscalar : value.isScalar = true)

include hscalar

/-- Where inlining commutes with lowering every expression of a model, it does with
lowering the model. -/
theorem QueryModel.LowersTo.inlined_of_expressions
    (h : ∀ e ∈ model.expressions, e.Lowers registry limit depth →
      e.LowersInlined registry limit depth name value)
    (hquery : model.LowersTo registry limit depth query) :
    ∃ query', (model.inline name value).LowersTo registry limit depth query' ∧
      (query.inline name value).Follows false query' := by
  have hsources : ∀ e ∈ model.sourceExpressions, e.Lowers registry limit depth →
      e.LowersInlined registry limit depth name value := fun e he =>
    h e (List.mem_append_left _ he)
  have hclauses : ∀ e ∈ model.clauseExpressions, e.Lowers registry limit depth →
      e.LowersInlined registry limit depth name value := fun e he =>
    h e (List.mem_append_right _ he)
  obtain ⟨hselector, horderings, hoperators, hfilter, hhaving⟩ :=
    forall_clauseExpressions.mp hclauses
  obtain ⟨source, hsource, hlower⟩ := hquery.source
  obtain ⟨sourceNode, hsourceNode, hsourceFollows⟩ :=
    (hsources source (by simp [sourceExpressions, hsource]) ⟨_, hlower⟩).follow hlower
  obtain ⟨joins, hjoins, hjoinsFollow⟩ := inline_lowerJoins hscalar (fun j hj e he =>
    hsources e (List.mem_append_right _ (List.mem_flatMap.mpr ⟨j, hj, he⟩))) hquery.joins
  obtain ⟨filter, hfilter, hfilterFollows⟩ := inline_lowerOption hfilter hquery.filter
  obtain ⟨having, hhaving, hhavingFollows⟩ := inline_lowerOption hhaving hquery.having
  obtain ⟨order, horder, horderFollows⟩ := inline_lowerOrderings horderings hquery.order
  obtain ⟨select, hselect, hselectFollows⟩ := inline_lowerOption hselector hquery.select
  obtain ⟨tail, htail, htailFollows⟩ := inline_lowerOperators hoperators hquery.tail
  refine ⟨⟨sourceNode, model.item, joins, filter, having, order, select, tail.distinct,
    tail.skip, tail.take, tail.aggregate⟩, ?_, ?_⟩
  · rw [QueryModel.inline_eq]
    exact ⟨⟨source.inline name value, by rw [hsource, Option.map_some], hsourceNode⟩, rfl, hjoins,
      hfilter, hhaving, horder, hselect, htail⟩
  · rw [Hql.Query.inline_eq]
    exact ⟨hsourceFollows, hquery.name.symm, hjoinsFollow, hfilterFollows, hhavingFollows,
      horderFollows, hselectFollows, htailFollows.distinct, htailFollows.skip, htailFollows.take,
      htailFollows.aggregate⟩

/-! ## Level by level -/

/-- Where inlining commutes with lowering the subqueries of an expression, it does
with lowering the expression. -/
theorem Expr.Lowers.inlined_of_subqueries (hplain : registry.IsPlain) {e : Expr}
    (h : e.Lowers registry limit depth) (hdeclares : e.Declares name value.type)
    (hsubqueries : ∀ model, e.Holds model →
      (Expr.subquery model).LowersInlined registry limit depth name value) :
    e.LowersInlined registry limit depth name value := by
  induction e using Expr.inductionOnOperands with
  | step e ih =>
      have hoperand : ∀ {operand : Expr}, operand ∈ e.operands →
          operand.LowersInlined registry limit depth name value := fun hoperand =>
        ih _ hoperand (h.operands hoperand) (hdeclares.operand hoperand) fun model hmodel =>
          hsubqueries model (holds_iff_operands.mpr (.inr ⟨_, hoperand, hmodel⟩))
      cases e with
      | constant literal => exact .constant hscalar literal
      | parameter other type => exact .parameter hscalar other type
      | source item type => exact .source hscalar item type
      | subquery model => exact hsubqueries model (by simp)
      | unary operator a type =>
          exact .unary hscalar (hoperand (by simp [Expr.operands])) operator type
      | binary operator a b =>
          exact .binary hscalar (hoperand (by simp [Expr.operands]))
            (hoperand (by simp [Expr.operands])) operator
      | member a property type =>
          exact .member hscalar (hoperand (by simp [Expr.operands])) property type
      | call method target arguments type =>
          exact .call hscalar hplain h fun e he => hoperand he
      | conditional test whenTrue whenFalse =>
          obtain ⟨a, b, rfl, rfl, hfit⟩ := checkBranches_conditional_iff.mp h.checkBranches
          exact .conditional hscalar (hoperand (by simp [Expr.operands]))
            (hoperand (by simp [Expr.operands])) (hoperand (by simp [Expr.operands])) hdeclares hfit
      | coalesce left right =>
          obtain ⟨a, b, rfl, rfl, hfit⟩ := checkBranches_coalesce_iff.mp h.checkBranches
          exact .coalesce hscalar (hoperand (by simp [Expr.operands]))
            (hoperand (by simp [Expr.operands])) hdeclares hfit

/-- The subquery over a model with whose lowering inlining commutes. -/
theorem Expr.LowersInlined.subquery (hdepth : depth < limit) {query' : Query}
    (hquery : model.LowersTo registry limit (depth + 1) query)
    (hquery' : (model.inline name value).LowersTo registry limit (depth + 1) query')
    (hfollows : (query.inline name value).Follows false query') :
    (Expr.subquery model).LowersInlined registry limit depth name value := by
  refine of_nodes hscalar (by rw [Expr.inline])
    (lowersTo_subquery.mpr ⟨hdepth, query, hquery, rfl⟩)
    (lowersTo_subquery.mpr ⟨hdepth, query', hquery', rfl⟩) ?_ rfl rfl
  rw [Node.inline_ofQuery]
  exact hfollows.ofQuery

/-- Inlining commutes with lowering an expression. The induction is on how many
subqueries may still be entered. -/
theorem Expr.Lowers.inlined (hplain : registry.IsPlain) {e : Expr}
    (h : e.Lowers registry limit depth) (hdeclares : e.Declares name value.type) :
    e.LowersInlined registry limit depth name value := by
  obtain ⟨budget, hbudget⟩ : ∃ budget, limit ≤ depth + budget := ⟨limit, by omega⟩
  induction budget generalizing e depth with
  | zero =>
      apply inlined_of_subqueries hscalar hplain h hdeclares
      intro model hmodel
      have hdepth := (lowers_subquery_iff.mp (h.of_holds hmodel)).1
      omega
  | succ budget ih =>
      apply inlined_of_subqueries hscalar hplain h hdeclares
      intro model hmodel
      obtain ⟨hdepth, query, hquery⟩ := lowers_subquery_iff.mp (h.of_holds hmodel)
      have hmodelDeclares := hdeclares.of_holds hmodel
      obtain ⟨query', hquery', hfollows⟩ := hquery.inlined_of_expressions hscalar fun e he he' =>
        ih he' (hmodelDeclares e he) (by omega)
      exact .subquery hscalar hdepth hquery hquery' hfollows

/-- Inlining commutes with lowering a model. -/
theorem QueryModel.LowersTo.inlined (hplain : registry.IsPlain)
    (hquery : model.LowersTo registry limit depth query)
    (hdeclares : model.Declares name value.type) :
    ∃ query', (model.inline name value).LowersTo registry limit depth query' ∧
      (query.inline name value).Follows false query' :=
  hquery.inlined_of_expressions hscalar fun e he he' =>
    Expr.Lowers.inlined hscalar hplain he' (hdeclares e he)

end

end ObjectQuery
