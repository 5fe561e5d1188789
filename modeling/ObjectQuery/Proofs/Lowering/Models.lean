import ObjectQuery.Proofs.Lowering.Follows

/-!
# Models whose queries follow others

Where every clause expression of a model is replaced by one that follows it,
the query of the new model follows the query of the old one. The tail of the
query is built up operator by operator, so it follows step by step.

As a consequence an expression that stands less deep follows the same
expression at its old place: depth counts for nothing but the limit.

## Main results

* `QueryModel.Related.lowersTo` — a model with its clauses replaced.
* `Expr.Lowers.follows_of_le` — an expression that stands less deep.
-/

namespace ObjectQuery

open Hql (Node Query Aggregate)

variable {registry : Registry} {limit : Nat} {lax : Bool} {depth depth' : Nat}

/-! ## The parts of a model -/

/-- The parts of a join become the parts of a join of a query. -/
structure JoinClause.LowersTo (registry : Registry) (limit depth : Nat) (j : JoinClause)
    (join : Hql.Join) : Prop where
  source : j.sequence.LowersTo registry limit depth join.source
  name : join.name = j.item
  on : ∃ a b, j.outerKey.LowersTo registry limit depth a ∧
    j.innerKey.LowersTo registry limit depth b ∧ join.on = .equality a b

/-- The parts of an ordering become the parts of an ordering key. -/
structure OrderClause.LowersTo (registry : Registry) (limit depth : Nat) (o : OrderClause)
    (k : Hql.OrderKey) : Prop where
  key : o.key.LowersTo registry limit depth k.key
  direction : k.direction = o.direction

theorem lowerOption_outcome_iff {o : Option Expr} {p : Option Node} :
    (lowerOption registry limit depth o).outcome = .ok p ↔
      Option.Rel (Expr.LowersTo registry limit depth) o p := by
  cases o with
  | none =>
      rw [lowerOption, Traced.outcome_pure]
      constructor
      · intro h
        obtain rfl := Except.ok.inj h
        exact .none
      · intro h
        cases h
        rfl
  | some e =>
      rw [lowerOption, Traced.outcome_bind_eq_ok]
      constructor
      · intro h
        obtain ⟨n, hn, hp⟩ := h
        obtain rfl := Except.ok.inj hp
        exact .some hn
      · intro h
        cases h with
        | some hn => exact ⟨_, hn, rfl⟩

theorem lowerJoins_outcome_iff {joins : List JoinClause} {ns : List Hql.Join} :
    (lowerJoins registry limit depth joins).outcome = .ok ns ↔
      List.Forall₂ (JoinClause.LowersTo registry limit depth) joins ns := by
  induction joins generalizing ns with
  | nil =>
      rw [lowerJoins, Traced.outcome_pure, List.forall₂_nil_left_iff, Except.ok.injEq, eq_comm]
  | cons j rest ih =>
      obtain ⟨item, itemType, sequence, outerKey, innerKey⟩ := j
      rw [lowerJoins, List.forall₂_cons_left_iff]
      simp only [Traced.outcome_bind_eq_ok, Traced.outcome_pure, ih]
      constructor
      · intro h
        obtain ⟨source, hsource, outer, houter, inner, hinner, rest', hrest, hns⟩ := h
        obtain rfl := Except.ok.inj hns
        exact ⟨⟨source, item, .equality outer inner⟩, rest',
          ⟨hsource, rfl, outer, inner, houter, hinner, rfl⟩, hrest, rfl⟩
      · intro h
        obtain ⟨⟨source, name, on⟩, rest', ⟨hsource, hname, outer, inner, houter, hinner, hon⟩,
          hrest, rfl⟩ := h
        refine ⟨source, hsource, outer, houter, inner, hinner, rest', hrest, ?_⟩
        rw [show name = item from hname, show on = _ from hon]

theorem lowerOrderings_outcome_iff {orderings : List OrderClause} {ks : List Hql.OrderKey} :
    (lowerOrderings registry limit depth orderings).outcome = .ok ks ↔
      List.Forall₂ (OrderClause.LowersTo registry limit depth) orderings ks := by
  induction orderings generalizing ks with
  | nil =>
      rw [lowerOrderings, Traced.outcome_pure, List.forall₂_nil_left_iff, Except.ok.injEq,
        eq_comm]
  | cons o rest ih =>
      obtain ⟨key, direction⟩ := o
      rw [lowerOrderings, List.forall₂_cons_left_iff]
      simp only [Traced.outcome_bind_eq_ok, Traced.outcome_pure, ih]
      constructor
      · intro h
        obtain ⟨n, hn, rest', hrest, hks⟩ := h
        obtain rfl := Except.ok.inj hks
        exact ⟨⟨n, direction⟩, rest', ⟨hn, rfl⟩, hrest, rfl⟩
      · intro h
        obtain ⟨⟨n, direction'⟩, rest', ⟨hn, hdirection⟩, hrest, rfl⟩ := h
        refine ⟨n, hn, rest', hrest, ?_⟩
        rw [show direction' = direction from hdirection]

/-! ## Result operators -/

/-- The node of a stage follows that of another one of the same kind. -/
inductive Stage.Follows (lax : Bool) : Stage → Stage → Prop
  | distinct : Follows lax .distinct .distinct
  | skip {count count' : Node} : count.Follows lax count' →
    Follows lax (.skip count) (.skip count')
  | take {count count' : Node} : count.Follows lax count' →
    Follows lax (.take count) (.take count')
  | reduce {aggregate aggregate' : Aggregate} : aggregate.Follows lax aggregate' →
    Follows lax (.reduce aggregate) (.reduce aggregate')

/-- The places of a tail follow those of another one. -/
structure Tail.Follows (lax : Bool) (tail tail' : Tail) : Prop where
  distinct : tail.distinct = tail'.distinct
  skip : Option.Rel (Node.Follows lax) tail.skip tail'.skip
  take : Option.Rel (Node.Follows lax) tail.take tail'.take
  aggregate : Option.Rel (Aggregate.Follows lax) tail.aggregate tail'.aggregate

/-- The stage of an operator with another operand. -/
theorem ResultOperator.Related.stage {operator operator' : ResultOperator} {stage : Stage}
    (h : operator.Related (fun e e' => e.Lowers registry limit depth →
      e.Follows registry limit lax depth depth' e') operator')
    (hstage : (operator.stage registry limit depth).outcome = .ok stage) :
    ∃ stage', (operator'.stage registry limit depth').outcome = .ok stage' ∧
      stage.Follows lax stage' := by
  have hoperand : ∀ {e e' : Expr} {f : Node → Stage},
      (∀ {n n' : Node}, n.Follows lax n' → (f n).Follows lax (f n')) →
      (e.Lowers registry limit depth → e.Follows registry limit lax depth depth' e') →
      (f <$> e.lower registry limit depth).outcome = .ok stage →
      ∃ stage', (f <$> e'.lower registry limit depth').outcome = .ok stage' ∧
        stage.Follows lax stage' := by
    intro e e' f hf hfollows hlower
    obtain ⟨n, hn, rfl⟩ := Traced.outcome_map_eq_ok.mp hlower
    obtain ⟨m, m', hm, hm', hnodes⟩ := (hfollows ⟨n, hn⟩).node
    obtain rfl := hm.unique hn
    exact ⟨f m', Traced.outcome_map_eq_ok.mpr ⟨m', hm', rfl⟩, hf hnodes⟩
  unfold ResultOperator.Related at h
  cases operator with
  | take rows =>
      obtain ⟨e', hfollows, rfl⟩ := h
      exact hoperand .take hfollows hstage
  | skip rows =>
      obtain ⟨e', hfollows, rfl⟩ := h
      exact hoperand .skip hfollows hstage
  | all predicate =>
      obtain ⟨e', hfollows, rfl⟩ := h
      exact hoperand (fun hn => .reduce (.all hn)) hfollows hstage
  | contains item =>
      obtain ⟨e', hfollows, rfl⟩ := h
      exact hoperand (fun hn => .reduce (.contains hn)) hfollows hstage
  | distinct =>
      obtain rfl := h
      obtain rfl := Except.ok.inj hstage
      exact ⟨_, rfl, .distinct⟩
  | _ =>
      obtain rfl := h
      obtain rfl := Except.ok.inj hstage
      exact ⟨_, rfl, .reduce (.same _)⟩

namespace Tail.Follows

variable {tail tail' : Tail}

/-- The step lemma: a further stage keeps tails alike. -/
theorem after (h : tail.Follows lax tail') {stage stage' : Stage}
    (hstage : stage.Follows lax stage') : (tail.after stage).Follows lax (tail'.after stage') := by
  cases hstage with
  | distinct => exact ⟨rfl, h.skip, h.take, h.aggregate⟩
  | @skip count count' hcount =>
      refine ⟨h.distinct, ?_, h.take, h.aggregate⟩
      have hskip := h.skip
      show Option.Rel _ (some _) (some _)
      revert hskip
      generalize tail.skip = o, tail'.skip = o'
      intro hskip
      cases hskip with
      | none => exact .some hcount
      | some hprevious => exact .some (hprevious.binary .add hcount)
  | @take count count' hcount =>
      refine ⟨h.distinct, h.skip, ?_, h.aggregate⟩
      have htake := h.take
      show Option.Rel _ (some _) (some _)
      revert htake
      generalize tail.take = o, tail'.take = o'
      intro htake
      cases htake with
      | none => exact .some hcount
      | some hprevious => exact .some (hprevious.least hcount)
  | reduce haggregate => exact ⟨h.distinct, h.skip, h.take, .some haggregate⟩

private theorem admits (h : tail.Follows lax tail') {stage stage' : Stage}
    (hstage : stage.Follows lax stage') (hadmits : tail.Admits stage) : tail'.Admits stage' := by
  have hnone : ∀ {α : Type} {R : α → α → Prop} {o o' : Option α}, Option.Rel R o o' →
      o = none → o' = none := by
    intro α R o o' hrel hnone
    subst hnone
    cases hrel
    rfl
  obtain ⟨haggregate, htake⟩ := hadmits
  refine ⟨hnone h.aggregate haggregate, ?_⟩
  intro count' hcount'
  subst hcount'
  cases hstage with
  | skip => exact hnone h.take (htake _ rfl)

/-- The run lemma: tails alike stay so over several stages. -/
theorem foldl (h : tail.Follows lax tail') {stages stages' : List Stage}
    (hstages : List.Forall₂ (Stage.Follows lax) stages stages')
    (hadmits : tail.AdmitsAll stages) :
    tail'.AdmitsAll stages' ∧
      (stages.foldl Tail.after tail).Follows lax (stages'.foldl Tail.after tail') := by
  induction hstages generalizing tail tail' with
  | nil => exact ⟨trivial, h⟩
  | cons hstage _ ih =>
      obtain ⟨hfirst, hrest⟩ := hadmits
      obtain ⟨hrest', hfollows⟩ := ih (h.after hstage) hrest
      exact ⟨⟨h.admits hstage hfirst, hrest'⟩, hfollows⟩

end Tail.Follows

theorem mapM_stage_outcome_iff {operators : List ResultOperator} {stages : List Stage} :
    (operators.mapM (ResultOperator.stage registry limit depth)).outcome = .ok stages ↔
      List.Forall₂ (fun operator stage =>
        (operator.stage registry limit depth).outcome = .ok stage) operators stages :=
  @Traced.Success.mapM_iff _ _ _ (@Traced.Success.anyhow LoweringEvent LoweringError) _ _
    operators stages

/-- The tail of operators with other operands. -/
theorem lowerOperators_follow {operators operators' : List ResultOperator} {tail : Tail}
    (h : List.Forall₂ (ResultOperator.Related fun e e' => e.Lowers registry limit depth →
      e.Follows registry limit lax depth depth' e') operators operators')
    (htail : (lowerOperators registry limit depth .empty operators).outcome = .ok tail) :
    ∃ tail', (lowerOperators registry limit depth' .empty operators').outcome = .ok tail' ∧
      tail.Follows lax tail' := by
  obtain ⟨stages, hstages, hadmits, rfl⟩ := lowerOperators_eq_ok.mp htail
  obtain ⟨stages', hstages', hfollow⟩ := forall₂_follow h (mapM_stage_outcome_iff.mp hstages)
    fun _ _ _ _ hrelated hstage => hrelated.stage hstage
  have hempty : Tail.empty.Follows lax Tail.empty := ⟨rfl, .none, .none, .none⟩
  obtain ⟨hadmits', htails⟩ := hempty.foldl hfollow hadmits
  exact ⟨_, lowerOperators_eq_ok.mpr ⟨stages', mapM_stage_outcome_iff.mpr hstages', hadmits', rfl⟩,
    htails⟩

/-! ## Models -/

/-- The expressions of a model that are not clause expressions: its main
source and those of its joins. -/
def QueryModel.sourceExpressions (model : QueryModel) : List Expr :=
  model.source.toList ++
    model.joins.flatMap fun j => [j.sequence, j.outerKey, j.innerKey]

private theorem ResultOperator.Related.isScalar_eq {R : Expr → Expr → Prop}
    {operator operator' : ResultOperator} (h : operator.Related R operator') :
    operator'.isScalar = operator.isScalar := by
  unfold Related at h
  cases operator with
  | all | take | skip | contains =>
      obtain ⟨e', -, rfl⟩ := h
      rfl
  | _ =>
      obtain rfl := h
      rfl

/-- Operators with other operands leave a value of the same type. -/
theorem ResultOperator.Related.reducedType_eq {R : Expr → Expr → Prop}
    {operator operator' : ResultOperator} (h : operator.Related R operator')
    (element : StaticType) :
    reducedType element (some operator') = reducedType element (some operator) := by
  unfold Related at h
  cases operator with
  | all | take | skip | contains =>
      obtain ⟨e', -, rfl⟩ := h
      rfl
  | _ =>
      obtain rfl := h
      rfl

private theorem find?_isScalar_related {R : Expr → Expr → Prop}
    {operators operators' : List ResultOperator}
    (h : List.Forall₂ (ResultOperator.Related R) operators operators') :
    Option.Rel (ResultOperator.Related R) (operators.find? ResultOperator.isScalar)
      (operators'.find? ResultOperator.isScalar) := by
  induction h with
  | nil => exact .none
  | cons hhead _ ih =>
      rw [List.find?_cons, List.find?_cons, hhead.isScalar_eq]
      split
      · exact .some hhead
      · exact ih

namespace QueryModel.Related

variable {model model' : QueryModel}

/-- How the type of a selector changes is how the type of the whole model
changes, for every kind of change that makes its way to collections. -/
theorem resultType_of {R : Expr → Expr → Prop} {T : StaticType → StaticType → Prop}
    (hrefl : ∀ t, T t t) (hcollection : ∀ {a b}, T a b → T (.collection a) (.collection b))
    (h : model.Related R model')
    (hselector : ∀ e, model.selector = some e → ∀ e', R e e' → T e.type e'.type) :
    T model.resultType model'.resultType := by
  have helement : T model.elementType model'.elementType := by
    unfold elementType
    rw [h.itemType]
    have hrel := h.selector
    revert hrel hselector
    generalize model.selector = o, model'.selector = o'
    intro hselector hrel
    cases hrel with
    | none => exact hrefl _
    | some hR => exact hselector _ rfl _ hR
  have hreduced : ∀ operator,
      T (reducedType model.elementType operator) (reducedType model'.elementType operator) := by
    intro operator
    cases operator with
    | none => exact hcollection helement
    | some operator => cases operator <;> first | exact hrefl _ | exact helement
  rw [resultType_eq, resultType_eq]
  have hreduction : Option.Rel (ResultOperator.Related R) model.reduction? model'.reduction? :=
    find?_isScalar_related (List.forall₂_reverse_iff.mpr h.operators)
  revert hreduction
  generalize model.reduction? = o, model'.reduction? = o'
  intro hreduction
  cases hreduction with
  | none => exact hreduced none
  | some hrelated =>
      rw [hrelated.reducedType_eq]
      exact hreduced _

/-- Where every clause is replaced by what follows it, the model becomes a
query that follows. -/
theorem lowersTo {query : Query}
    (h : model.Related (fun e e' => e.Lowers registry limit depth →
      e.Follows registry limit lax depth depth' e') model')
    (hsources : ∀ e ∈ model.sourceExpressions, e.Lowers registry limit depth →
      e.Follows registry limit lax depth depth' e)
    (hquery : model.LowersTo registry limit depth query) :
    (∃ query', model'.LowersTo registry limit depth' query' ∧ query.Follows lax query') ∧
      model.resultType.Loosens lax model'.resultType := by
  have hstep : ∀ {e e' : Expr} {n : Node},
      (e.Lowers registry limit depth → e.Follows registry limit lax depth depth' e') →
      e.LowersTo registry limit depth n →
      ∃ n', e'.LowersTo registry limit depth' n' ∧ n.Follows lax n' := by
    intro e e' n hfollows hn
    obtain ⟨m, n', hm, hn', hnodes⟩ := (hfollows ⟨n, hn⟩).node
    obtain rfl := hm.unique hn
    exact ⟨n', hn', hnodes⟩
  have hoption : ∀ {o o' : Option Expr} {p : Option Node},
      Option.Rel (fun e e' => e.Lowers registry limit depth →
        e.Follows registry limit lax depth depth' e') o o' →
      (lowerOption registry limit depth o).outcome = .ok p →
      ∃ p', (lowerOption registry limit depth' o').outcome = .ok p' ∧
        Option.Rel (Node.Follows lax) p p' := by
    intro o o' p hrel hp
    obtain ⟨p', hp', hfollow⟩ := rel_follow hrel (lowerOption_outcome_iff.mp hp)
      fun _ _ _ hfollows hn => hstep hfollows hn
    exact ⟨p', lowerOption_outcome_iff.mpr hp', hfollow⟩
  obtain ⟨source, hsource, hlower⟩ := hquery.source
  obtain ⟨sourceNode, hsourceNode, hsourceFollows⟩ := hstep
    (hsources source (by simp [sourceExpressions, hsource])) hlower
  obtain ⟨filter, hfilter, hfilterFollows⟩ := hoption h.filter hquery.filter
  obtain ⟨having, hhaving, hhavingFollows⟩ := hoption h.having hquery.having
  obtain ⟨select, hselect, hselectFollows⟩ := hoption h.selector hquery.select
  obtain ⟨tail, htail, htailFollows⟩ := lowerOperators_follow h.operators hquery.tail
  obtain ⟨order, horder, horderFollows⟩ := forall₂_follow h.orderings
    (lowerOrderings_outcome_iff.mp hquery.order)
    (U := OrderClause.LowersTo registry limit depth') (T := Hql.OrderKey.Follows lax) (by
      intro o _ o' k hrelated hk
      obtain ⟨n', hn', hfollows⟩ := hstep hrelated.1 hk.key
      exact ⟨⟨n', o'.direction⟩, ⟨hn', rfl⟩, hfollows, hk.direction.trans hrelated.2.symm⟩)
  obtain ⟨joins, hjoins, hjoinsFollow⟩ := forall₂_follow
    (List.forall₂_same.mpr fun j (_ : j ∈ model.joins) => rfl (a := j))
    (lowerJoins_outcome_iff.mp hquery.joins)
    (U := JoinClause.LowersTo registry limit depth') (T := Hql.Join.Follows lax) (by
      intro j hj j' join hsame hjoin
      obtain rfl : j = j' := hsame
      have hmem : ∀ e ∈ [j.sequence, j.outerKey, j.innerKey], e ∈ model.sourceExpressions :=
        fun e he => List.mem_append_right _ (List.mem_flatMap.mpr ⟨j, hj, he⟩)
      obtain ⟨a, b, ha, hb, hon⟩ := hjoin.on
      obtain ⟨n', hn', hsource⟩ := hstep (hsources _ (hmem _ (by simp))) hjoin.source
      obtain ⟨a', ha', houter⟩ := hstep (hsources _ (hmem _ (by simp))) ha
      obtain ⟨b', hb', hinner⟩ := hstep (hsources _ (hmem _ (by simp))) hb
      refine ⟨⟨n', j.item, .equality a' b'⟩, ⟨hn', rfl, a', b', ha', hb', rfl⟩,
        ⟨hsource, hjoin.name, ?_⟩⟩
      rw [hon]
      exact houter.equality hinner)
  refine ⟨⟨⟨sourceNode, model.item, joins, filter, having, order, select, tail.distinct,
    tail.skip, tail.take, tail.aggregate⟩, ?_, ?_⟩, ?_⟩
  · refine ⟨⟨source, h.source.trans hsource, hsourceNode⟩, h.item, ?_, hfilter, hhaving, ?_,
      hselect, htail⟩
    · rw [h.joins]
      exact lowerJoins_outcome_iff.mpr hjoins
    · exact lowerOrderings_outcome_iff.mpr horder
  · exact ⟨hsourceFollows, hquery.name.symm, hjoinsFollow, hfilterFollows, hhavingFollows,
      horderFollows, hselectFollows, htailFollows.distinct, htailFollows.skip,
      htailFollows.take, htailFollows.aggregate⟩
  · refine h.resultType_of .refl .collection fun e he e' hfollows => (hfollows ?_).type
    have hselector := lowerOption_outcome_iff.mp hquery.select
    rw [he] at hselector
    generalize query.select = p at hselector
    cases hselector with
    | some hn => exact ⟨_, hn⟩

end QueryModel.Related

/-- The clause expressions of a model that can be lowered can be lowered. -/
theorem QueryModel.LowersTo.lowers {model : QueryModel} {query : Query}
    (h : model.LowersTo registry limit depth query) {e : Expr}
    (he : e ∈ model.clauseExpressions) : e.Lowers registry limit depth := by
  have hoption : ∀ {o : Option Expr} {p : Option Node},
      (lowerOption registry limit depth o).outcome = .ok p → o = some e →
      e.Lowers registry limit depth := by
    intro o p hp ho
    subst ho
    have hrel := lowerOption_outcome_iff.mp hp
    cases hrel with
    | some hn => exact ⟨_, hn⟩
  rcases mem_clauseExpressions.mp he with hselector | ⟨o, ho, rfl⟩ | ⟨operator, hoperator, hoperand⟩ |
    hfilter | hhaving
  · exact hoption h.select hselector
  · obtain ⟨k, -, hk⟩ := exists_right_of_forall₂ (lowerOrderings_outcome_iff.mp h.order) ho
    exact ⟨k.key, hk.key⟩
  · obtain ⟨stages, hstages, -⟩ := lowerOperators_eq_ok.mp h.tail
    obtain ⟨stage, -, hstage⟩ :=
      exists_right_of_forall₂ (mapM_stage_outcome_iff.mp hstages) hoperator
    cases operator with
    | all predicate | take predicate | skip predicate | contains predicate =>
        obtain rfl := Option.some.inj hoperand
        obtain ⟨n, hn, -⟩ := Traced.outcome_map_eq_ok.mp hstage
        exact ⟨n, hn⟩
    | _ => cases hoperand
  · exact hoption h.filter hfilter
  · exact hoption h.having hhaving

/-! ## Less deep -/

/-- An expression that stands less deep follows the same expression at its old
place. The induction is on how many subqueries may still be entered. -/
theorem Expr.Lowers.follows_of_le (hplain : registry.IsPlain) {e : Expr}
    (h : e.Lowers registry limit depth) (hle : depth' ≤ depth) :
    e.Follows registry limit lax depth depth' e := by
  obtain ⟨budget, hbudget⟩ : ∃ budget, limit ≤ depth + budget := ⟨limit, by omega⟩
  induction budget generalizing e depth depth' with
  | zero =>
      refine Expr.Replaced.follows hplain ((Expr.Replaced.self_iff (P := fun model result =>
        result = .subquery model) h.isSound).mpr fun _ _ => rfl) h ?_
      intro model result hmodel _
      obtain ⟨n, hn⟩ := h.of_holds hmodel
      have hdepth := (Expr.lowersTo_subquery.mp hn).1
      omega
  | succ budget ih =>
      refine Expr.Replaced.follows hplain ((Expr.Replaced.self_iff (P := fun model result =>
        result = .subquery model) h.isSound).mpr fun _ _ => rfl) h ?_
      intro model result hmodel hresult
      subst hresult
      obtain ⟨n, hn⟩ := h.of_holds hmodel
      obtain ⟨hdepth, query, hquery, hnode⟩ := Expr.lowersTo_subquery.mp hn
      have hinner : ∀ e : Expr, e.Lowers registry limit (depth + 1) →
          e.Follows registry limit lax (depth + 1) (depth' + 1) e := fun e he =>
        ih he (by omega) (by omega)
      obtain ⟨⟨query', hquery', hfollows⟩, htype⟩ := QueryModel.Related.lowersTo
        (QueryModel.Related.self_iff.mpr fun e _ => hinner e) (fun e _ => hinner e) hquery
      have hn' := Expr.lowersTo_subquery.mpr ⟨by omega, query', hquery', rfl⟩
      rw [hnode] at hn
      exact .of_nodes rfl htype hn hn' hfollows.ofQuery rfl rfl

end ObjectQuery
