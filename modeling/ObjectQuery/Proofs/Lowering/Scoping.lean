import ObjectQuery.Proofs.Engine.Scoping
import ObjectQuery.Proofs.Expr.Nesting
import ObjectQuery.Proofs.Expr.Scoping
import ObjectQuery.Proofs.Lowering.Models

/-!
# Lowering keeps names in scope

A reference to an item becomes the name of the item, and everything else that
lowering adds to a node has no name in it. A call that is distributed over a
decision moves the decision outside of itself, to where the call stood. In a
query each clause has a place of its own, whose names are those that the clause
of the model may use: the two keys of a join become one condition, and numbers
of rows are put together with others of their kind only.

## Main results

* `Generator.emit_wellScoped` — a handler uses the names of its operands.
* `Expr.call_wellScoped` — so does a call, however it is distributed.
* `Expr.keepsScope` — a well-scoped expression becomes a well-scoped node.
* `QueryModel.LowersTo.wellScoped` — a well-scoped model becomes a well-scoped
  query.
-/

namespace ObjectQuery

open Hql (Node Query)

variable {registry : Registry} {limit depth : Nat} {outer bound : List String}

/-! ## Nodes that are built -/

namespace Hql.Node

variable {a b test : Node}

theorem ifThenElse_wellScoped_iff :
    (ifThenElse test a b).WellScoped bound ↔
      test.WellScoped bound ∧ a.WellScoped bound ∧ b.WellScoped bound := by
  simp [ifThenElse, WellScoped, whensWellScoped, optionWellScoped, and_assoc]

theorem function_wellScoped {name : String} {arguments : List Node}
    (h : ∀ n ∈ arguments, n.WellScoped bound) : (function name arguments).WellScoped bound :=
  allWellScoped_iff.mpr h

private theorem WellScoped.equality (ha : a.WellScoped bound) (hb : b.WellScoped bound) :
    (a.equality b).WellScoped bound := by
  rw [equality_eq]
  split
  · exact hb
  · split
    · exact ha
    · exact ⟨ha, hb⟩

private theorem WellScoped.inequality (ha : a.WellScoped bound) (hb : b.WellScoped bound) :
    (a.inequality b).WellScoped bound := by
  rw [inequality_eq]
  split
  · exact hb
  · split
    · exact ha
    · exact ⟨ha, hb⟩

private theorem WellScoped.unaryNode (ha : a.WellScoped bound) (operator : UnaryOperator)
    (type : StaticType) : (unaryNode operator a type).WellScoped bound := by
  cases operator with
  | convert => cases type <;> exact ha
  | _ => exact ha

private theorem WellScoped.binaryNode (ha : a.WellScoped bound) (hb : b.WellScoped bound)
    (operator : BinaryOperator) : (binaryNode operator a b).WellScoped bound := by
  cases operator with
  | equal => exact ha.equality hb
  | notEqual => exact ha.inequality hb
  | _ => exact ⟨ha, hb⟩

/-- Escaping a text adds no name to it. -/
theorem WellScoped.literalPattern (ha : a.WellScoped bound) :
    (literalPattern a).WellScoped bound := by
  unfold ObjectQuery.literalPattern
  split
  · trivial
  · have hfold : ∀ (specials : List Char) (escaped : Node), escaped.WellScoped bound →
        (specials.foldl (fun escaped special => function "replace" [escaped,
          string (String.singleton special),
          string (String.ofList [patternEscape, special])]) escaped).WellScoped bound := by
      intro specials
      induction specials with
      | nil => exact fun escaped h => h
      | cons special rest ih => exact fun escaped h => ih _ ⟨h, trivial, trivial, trivial⟩
    exact hfold _ _ ha

end Hql.Node

/-! ## Calls -/

/-- What a fixed generator makes of a call uses the names of its operands. -/
theorem Generator.emit_wellScoped {generator : Generator} (hplain : generator.isPlain = true)
    {site : CallSite} {n : Node} (h : generator.emit site = .ok n)
    (hoperands : ∀ m ∈ site.operands, m.WellScoped bound) : n.WellScoped bound := by
  have hpair : ∀ {a b : Node}, site.pair = .ok (a, b) → a.WellScoped bound ∧ b.WellScoped bound := by
    intro a b hpair
    rw [CallSite.pair_eq_ok_iff.mp hpair] at hoperands
    exact ⟨hoperands a (by simp), hoperands b (by simp)⟩
  have hsole : ∀ {a : Node}, site.sole = .ok a → ∀ m ∈ [a], m.WellScoped bound := by
    intro a hsole
    rw [CallSite.sole_eq_ok_iff.mp hsole] at hoperands
    exact hoperands
  cases generator with
  | custom emit => cases hplain
  | function name =>
      obtain rfl := Except.ok.inj h
      exact Node.function_wellScoped hoperands
  | collectionAny | collectionCount =>
      obtain ⟨a, ha, hn⟩ := bind_eq_ok.mp h
      obtain rfl := Except.ok.inj hn
      exact Node.function_wellScoped (hsole ha)
  | equality =>
      obtain ⟨⟨a, b⟩, hab, hn⟩ := bind_eq_ok.mp h
      obtain rfl := Except.ok.inj hn
      exact (hpair hab).1.equality (hpair hab).2
  | binary operator =>
      obtain ⟨⟨a, b⟩, hab, hn⟩ := bind_eq_ok.mp h
      obtain rfl := Except.ok.inj hn
      exact hpair hab
  | collectionContains =>
      obtain ⟨⟨a, b⟩, hab, hn⟩ := bind_eq_ok.mp h
      obtain rfl := Except.ok.inj hn
      exact (hpair hab).symm
  | startsWith | endsWith | stringContains =>
      obtain ⟨⟨a, b⟩, hab, hn⟩ := bind_eq_ok.mp h
      obtain rfl := Except.ok.inj hn
      refine ⟨(hpair hab).1, Node.function_wellScoped ?_⟩
      simp [(hpair hab).2.literalPattern, anyRunPattern, Node.string, Node.WellScoped]

/-- The expression becomes a node that uses only names that are bound. -/
def Expr.LowersInScope (registry : Registry) (limit depth : Nat) (bound : List String)
    (e : Expr) : Prop :=
  ∃ n, e.LowersTo registry limit depth n ∧ n.WellScoped bound

theorem Expr.LowersInScope.wellScoped {e : Expr} (h : e.LowersInScope registry limit depth bound)
    {n : Node} (hn : e.LowersTo registry limit depth n) : n.WellScoped bound := by
  obtain ⟨m, hm, hscoped⟩ := h
  obtain rfl := hm.unique hn
  exact hscoped

/-- A call uses the names of its operands, no matter over which of them it is
distributed. -/
theorem Expr.call_wellScoped (hplain : registry.IsPlain) {method : MethodSignature}
    {target : Option Expr} {arguments : List Expr} {type : StaticType} {n : Node}
    (hoperands : ∀ e ∈ target.toList ++ arguments, e.LowersInScope registry limit depth bound)
    (h : (call method target arguments type).LowersTo registry limit depth n) :
    n.WellScoped bound := by
  obtain ⟨handler, hlookup, -⟩ := lowers_of_call ⟨n, h⟩
  refine call_meets (P := fun n => n.WellScoped bound) ?_ ?_ hlookup hoperands ?_ h
  -- the branches of an operand that becomes a well-scoped node do so themselves
  · intro test a b nt ma mb hnt hscoped hma hmb
    obtain ⟨m, hm, hscoped⟩ := hscoped
    obtain ⟨_, _, ha, hb, -, nt', na, nb, hnt', hna, hnb, rfl⟩ := lowersTo_conditional.mp hm
    obtain rfl := Option.some.inj ha
    obtain rfl := Option.some.inj hb
    obtain rfl := hnt.unique hnt'
    obtain ⟨ht, ha, hb⟩ := Node.ifThenElse_wellScoped_iff.mp hscoped
    exact Node.ifThenElse_wellScoped_iff.mpr ⟨ht, hma ⟨na, hna, ha⟩, hmb ⟨nb, hnb, hb⟩⟩
  · intro a b na ma mb hna hscoped hma hmb
    obtain ⟨m, hm, hscoped⟩ := hscoped
    obtain ⟨_, _, ha, hb, -, na', nb, hna', hnb, rfl⟩ := lowersTo_coalesce.mp hm
    obtain rfl := Option.some.inj ha
    obtain rfl := Option.some.inj hb
    obtain rfl : na = na' := hna.unique hna'
    obtain ⟨ha, hb⟩ := hscoped
    exact Node.ifThenElse_wellScoped_iff.mpr ⟨ha, hma ⟨na, hna, ha⟩, hmb ⟨nb, hnb, hb⟩⟩
  · intro site hsite n hn
    refine Generator.emit_wellScoped (hplain method handler hlookup) hn fun m hm => ?_
    obtain ⟨e, he, hem⟩ := hsite m hm
    exact he.wellScoped hem

/-! ## Tails -/

/-- Whether a stage uses only names that are bound where it is evaluated. -/
def Stage.WellScoped (outer bound : List String) : Stage → Prop
  | .distinct => True
  | .skip count | .take count => count.WellScoped outer
  | .reduce aggregate => Hql.aggregateWellScoped outer bound (some aggregate)

/-- Whether a tail uses only names that are bound where it is evaluated. -/
structure Tail.WellScoped (outer bound : List String) (tail : Tail) : Prop where
  skip : Hql.optionWellScoped outer tail.skip
  take : Hql.optionWellScoped outer tail.take
  aggregate : Hql.aggregateWellScoped outer bound tail.aggregate

namespace Tail

private theorem empty_wellScoped : empty.WellScoped outer bound := ⟨trivial, trivial, trivial⟩

/-- The step lemma: one more stage keeps a tail in scope. -/
theorem WellScoped.after {tail : Tail} (h : tail.WellScoped outer bound) {stage : Stage}
    (hstage : stage.WellScoped outer bound) : (tail.after stage).WellScoped outer bound := by
  obtain ⟨distinct, skip, take, aggregate⟩ := tail
  obtain ⟨hskip, htake, haggregate⟩ := h
  cases stage with
  | distinct => exact ⟨hskip, htake, haggregate⟩
  | reduce aggregate => exact ⟨hskip, htake, hstage⟩
  | skip count =>
      refine ⟨?_, htake, haggregate⟩
      cases skip with
      | none => exact hstage
      | some previous => exact ⟨hskip, hstage⟩
  | take count =>
      refine ⟨hskip, ?_, haggregate⟩
      cases take with
      | none => exact hstage
      | some previous => exact ⟨htake, hstage, trivial⟩

/-- The run lemma: any stages keep a tail in scope. -/
theorem WellScoped.foldl {tail : Tail} (h : tail.WellScoped outer bound) {stages : List Stage}
    (hstages : ∀ stage ∈ stages, stage.WellScoped outer bound) :
    (stages.foldl Tail.after tail).WellScoped outer bound := by
  induction stages generalizing tail with
  | nil => exact h
  | cons stage rest ih =>
      obtain ⟨hstage, hrest⟩ := List.forall_mem_cons.mp hstages
      exact ih (h.after hstage) hrest

end Tail

/-- A test for existence leaves out what the query selects, and adds nothing. -/
theorem Hql.Query.WellScoped.ofQuery {query : Query} (h : query.WellScoped outer) :
    (Node.ofQuery query).WellScoped outer := by
  obtain ⟨source, name, joins, filter, having, order, select, distinct, skip, take,
    aggregate⟩ := query
  unfold Node.ofQuery
  split
  · obtain ⟨hsource, hjoins, hfilter, hhaving, horder, -, hskip, htake, -⟩ := h
    exact ⟨hsource, hjoins, hfilter, hhaving, horder, trivial, hskip, htake, trivial⟩
  · exact h

/-! ## Clauses -/

/-- At any depth and in any scope, the expression becomes a node that is well
scoped where the expression is. -/
def Expr.KeepsScope (registry : Registry) (limit : Nat) (e : Expr) : Prop :=
  ∀ {depth bound n}, e.LowersTo registry limit depth n → e.WellScoped bound → n.WellScoped bound

private theorem lowerOption_wellScoped {o : Option Expr} {p : Option Node}
    (h : ∀ e, o = some e → e.KeepsScope registry limit) (ho : optionWellScoped bound o)
    (hp : (lowerOption registry limit depth o).outcome = .ok p) :
    Hql.optionWellScoped bound p := by
  have hrel := lowerOption_outcome_iff.mp hp
  cases hrel with
  | none => trivial
  | some hn => exact h _ rfl hn ho

private theorem lowerOrderings_wellScoped {orderings : List OrderClause} {ks : List Hql.OrderKey}
    (h : ∀ o ∈ orderings, o.key.KeepsScope registry limit)
    (horderings : orderingsWellScoped bound orderings)
    (hks : (lowerOrderings registry limit depth orderings).outcome = .ok ks) :
    Hql.orderWellScoped bound ks := by
  have hrel := lowerOrderings_outcome_iff.mp hks
  clear hks
  induction hrel with
  | nil => trivial
  | @cons o k _ _ hk _ ih =>
      obtain ⟨hkeeps, hrest⟩ := List.forall_mem_cons.mp h
      obtain ⟨key, direction⟩ := o
      obtain ⟨node, direction'⟩ := k
      exact ⟨hkeeps hk.key horderings.1, ih hrest horderings.2⟩

/-- The joins of a query bind the items of those of the model, in the same order. -/
theorem names_of_lowerJoins {joins : List JoinClause} {ns : List Hql.Join}
    (hns : (lowerJoins registry limit depth joins).outcome = .ok ns) :
    ns.map Hql.Join.name = joins.map JoinClause.item := by
  have hrel := lowerJoins_outcome_iff.mp hns
  clear hns
  induction hrel with
  | nil => rfl
  | cons hjoin _ ih => rw [List.map_cons, List.map_cons, hjoin.name, ih]

private theorem lowerJoins_wellScoped {joins : List JoinClause} {ns : List Hql.Join}
    (h : ∀ j ∈ joins, ∀ e ∈ [j.sequence, j.outerKey, j.innerKey], e.KeepsScope registry limit)
    (hjoins : joinsWellScoped bound joins)
    (hns : (lowerJoins registry limit depth joins).outcome = .ok ns) :
    Hql.joinsWellScoped bound ns := by
  have hrel := lowerJoins_outcome_iff.mp hns
  clear hns
  induction hrel generalizing bound with
  | nil => trivial
  | @cons j join _ _ hjoin _ ih =>
      obtain ⟨hkeeps, hrest⟩ := List.forall_mem_cons.mp h
      obtain ⟨item, itemType, sequence, outerKey, innerKey⟩ := j
      obtain ⟨source, name, on⟩ := join
      obtain ⟨hsequence, houter, hinner, hscoped⟩ := hjoins
      obtain ⟨hsource, rfl, a, b, ha, hb, rfl⟩ := hjoin
      refine ⟨hkeeps _ (by simp) hsource hsequence, ?_, ih hrest hscoped⟩
      exact (hkeeps _ (by simp) ha houter).equality (hkeeps _ (by simp) hb hinner)

/-- The stage of a result operator uses the names that its operand may use. -/
theorem ResultOperator.stage_wellScoped {operator : ResultOperator} {stage : Stage}
    (h : ∀ e, operator.operand? = some e → e.KeepsScope registry limit)
    (hoperator : ∀ e, operator.operand? = some e → e.WellScoped (operator.scope outer bound))
    (hstage : (operator.stage registry limit depth).outcome = .ok stage) :
    stage.WellScoped outer bound := by
  cases operator with
  | take e | skip e | all e | contains e =>
      obtain ⟨n, hn, rfl⟩ := Traced.outcome_map_eq_ok.mp hstage
      exact h e rfl hn (hoperator e rfl)
  | _ =>
      obtain rfl := Except.ok.inj hstage
      trivial

private theorem lowerOperators_wellScoped {operators : List ResultOperator} {tail : Tail}
    (h : ∀ operator ∈ operators, ∀ e, operator.operand? = some e → e.KeepsScope registry limit)
    (hoperators : operatorsWellScoped outer bound operators)
    (htail : (lowerOperators registry limit depth .empty operators).outcome = .ok tail) :
    tail.WellScoped outer bound := by
  rw [operatorsWellScoped_iff] at hoperators
  obtain ⟨stages, hstages, -, rfl⟩ := lowerOperators_eq_ok.mp htail
  refine Tail.empty_wellScoped.foldl fun stage hstage => ?_
  obtain ⟨operator, hoperator, hlowered⟩ :=
    exists_left_of_forall₂ (mapM_stage_outcome_iff.mp hstages) hstage
  exact operator.stage_wellScoped (h operator hoperator) (hoperators operator hoperator) hlowered

/-! ## Models -/

/-- Where the expressions of a model stay in scope, so does the model. -/
theorem QueryModel.LowersTo.wellScoped_of_expressions {model : QueryModel} {query : Query}
    (hquery : model.LowersTo registry limit depth query)
    (h : ∀ e ∈ model.expressions, e.KeepsScope registry limit)
    (hmodel : model.WellScoped outer) : query.WellScoped outer := by
  have hsources : ∀ e ∈ model.sourceExpressions, e.KeepsScope registry limit := fun e he =>
    h e (List.mem_append_left _ he)
  have hclauses : ∀ e ∈ model.clauseExpressions, e.KeepsScope registry limit := fun e he =>
    h e (List.mem_append_right _ he)
  obtain ⟨hkeepsSelector, hkeepsOrderings, hkeepsOperators, hkeepsFilter, hkeepsHaving⟩ :=
    forall_clauseExpressions.mp hclauses
  obtain ⟨hsource, hjoins, hfilter, hhaving, horderings, hselector, hoperators⟩ :=
    wellScoped_iff.mp hmodel
  -- every part of the query may use the names that the part of the model may use
  have hscope : query.joins.map Hql.Join.name ++ query.name :: outer = model.scope outer := by
    rw [names_of_lowerJoins hquery.joins, ← hquery.name]
    rfl
  have hsourceNode : query.source.WellScoped outer := by
    obtain ⟨e, he, hlower⟩ := hquery.source
    rw [he] at hsource
    exact hsources e (by simp [sourceExpressions, he]) hlower hsource
  have hjoinNodes : Hql.joinsWellScoped (query.name :: outer) query.joins := by
    rw [← hquery.name]
    exact lowerJoins_wellScoped (fun j hj e he => hsources e
      (List.mem_append_right _ (List.mem_flatMap.mpr ⟨j, hj, he⟩))) hjoins hquery.joins
  have hfilterNode := lowerOption_wellScoped hkeepsFilter hfilter hquery.filter
  have hhavingNode := lowerOption_wellScoped hkeepsHaving hhaving hquery.having
  have horder := lowerOrderings_wellScoped hkeepsOrderings horderings hquery.order
  have hselect := lowerOption_wellScoped hkeepsSelector hselector hquery.select
  have htail := lowerOperators_wellScoped hkeepsOperators hoperators hquery.tail
  rw [← hscope] at hfilterNode hhavingNode horder hselect htail
  cases query
  exact ⟨hsourceNode, hjoinNodes, hfilterNode, hhavingNode, horder, hselect, htail.skip,
    htail.take, htail.aggregate⟩

/-- Every expression becomes a node that is well scoped where the expression is.
The induction is on the operands and on the expressions of subqueries. -/
theorem Expr.keepsScope (hplain : registry.IsPlain) (e : Expr) : e.KeepsScope registry limit := by
  induction e using nestedInduction with
  | step e ihOperands ihNested =>
      intro depth bound n hn hscoped
      cases e with
      | constant value =>
          cases value <;> obtain rfl := Except.ok.inj hn <;> trivial
      | parameter name type =>
          obtain rfl := Except.ok.inj hn
          trivial
      | source name type =>
          obtain rfl := Except.ok.inj hn
          exact hscoped
      | unary operator operand type =>
          obtain ⟨a, ha, rfl⟩ := lowersTo_unary.mp hn
          exact (ihOperands operand (by simp [operands]) ha hscoped).unaryNode operator type
      | binary operator left right =>
          obtain ⟨a, b, ha, hb, rfl⟩ := lowersTo_binary.mp hn
          exact (ihOperands left (by simp [operands]) ha hscoped.1).binaryNode
            (ihOperands right (by simp [operands]) hb hscoped.2) operator
      | member target name type =>
          obtain ⟨a, ha, rfl⟩ := lowersTo_member.mp hn
          show a.WellScoped bound
          exact ihOperands target (by simp [operands]) ha hscoped
      | call method target arguments type =>
          refine call_wellScoped hplain (fun e he => ?_) hn
          obtain ⟨m, hm⟩ := Lowers.operands ⟨n, hn⟩ he
          exact ⟨m, hm, ihOperands e he hm (hscoped.operand he)⟩
      | conditional test whenTrue whenFalse =>
          obtain ⟨a, b, rfl, rfl, -, nt, na, nb, hnt, hna, hnb, rfl⟩ := lowersTo_conditional.mp hn
          obtain ⟨ht, ha, hb⟩ := hscoped
          exact Node.ifThenElse_wellScoped_iff.mpr
            ⟨ihOperands test (by simp [operands]) hnt ht, ihOperands a (by simp [operands]) hna ha,
              ihOperands b (by simp [operands]) hnb hb⟩
      | coalesce left right =>
          obtain ⟨a, b, rfl, rfl, -, na, nb, hna, hnb, rfl⟩ := lowersTo_coalesce.mp hn
          exact ⟨ihOperands a (by simp [operands]) hna hscoped.1,
            ihOperands b (by simp [operands]) hnb hscoped.2⟩
      | subquery model =>
          obtain ⟨-, query, hquery, rfl⟩ := lowersTo_subquery.mp hn
          exact (hquery.wellScoped_of_expressions (ihNested model rfl) hscoped).ofQuery

/-- A well-scoped model becomes a well-scoped query. -/
theorem QueryModel.LowersTo.wellScoped (hplain : registry.IsPlain) {model : QueryModel}
    {query : Query} (hquery : model.LowersTo registry limit depth query)
    (hmodel : model.WellScoped outer) : query.WellScoped outer :=
  hquery.wellScoped_of_expressions (fun e _ => Expr.keepsScope hplain e) hmodel

end ObjectQuery
