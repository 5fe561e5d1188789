import ObjectQuery.Proofs.Expansion.Again
import ObjectQuery.Proofs.Lowering.Apart

/-!
# What can be lowered

Whether an expression can be lowered is decided node by node: the branches of
a decision have to fit, the handler of a call has to take so many operands,
and a subquery has to nest within the limit. Whether a model can be lowered is
decided by its expressions and by the order of its result operators.

So an expression can be lowered with its subqueries replaced by whatever can
be lowered, if only its branches still fit; and what can be lowered can also be
lowered where it stands less deep. The former asks for handlers that judge a
call by the number of its operands. A handler of another kind may refuse what
it would have taken as it was written before.

## Main definitions

* `Expr.NodeLowers` — what is asked of a node, its operands aside.
* `OperatorKind.MayPrecede` — which result operators may follow one another.

## Main results

* `Expr.lowers_iff`, `QueryModel.lowers_iff` — what can be lowered.
* `Expr.Replaced.lowers` — subqueries may be replaced where branches still fit.
* `Expr.IsBranch.inPlace_lowers` — a source taken apart can be lowered.
-/

namespace ObjectQuery

open Hql (Node)

variable {registry : Registry} {limit depth depth' : Nat}

/-! ## Calls -/

section

variable {handler : Handler} {method : MethodSignature} {target : Option Expr}
  {arguments : List Expr} {type : StaticType}

private theorem Expr.over_succeeds {place : OperandPlace} {e : Expr}
    {proceed : Operand → Lowering Node}
    (he : e.Lowers registry limit depth)
    (hproceed : ∀ w : Expr, w.Lowers registry limit depth →
      ∃ n, (proceed (w.asOperand registry limit depth)).outcome = .ok n) :
    ∃ n, (e.over registry limit depth place proceed).outcome = .ok n := by
  unfold Expr.over
  cases place.expansion with
  | never => exact hproceed e he
  | bareBranching =>
      have hwhole : ∀ w : Expr, w.isExpandable = false → w.Lowers registry limit depth →
          ∃ n, (proceed (w.asOperand registry limit depth)).outcome = .ok n ∧ True := by
        intro w _ hw
        obtain ⟨n, hn⟩ := hproceed w hw
        exact ⟨n, hn, trivial⟩
      refine (overBranch_makes (M := fun _ _ => True) he hwhole ?_ ?_).imp fun n hn => hn.1
      · intros
        trivial
      · intros
        trivial

private theorem overArguments_succeeds {place : OperandPlace}
    {proceed : List Operand → Lowering Node}
    (harguments : ∀ e ∈ arguments, e.Lowers registry limit depth)
    (hproceed : ∀ ws : List Expr, ws.length = arguments.length →
      (∀ w ∈ ws, w.Lowers registry limit depth) →
        ∃ n, (proceed (ws.map (Expr.asOperand registry limit depth))).outcome = .ok n) :
    ∃ n, (overArguments registry limit depth place arguments proceed).outcome = .ok n := by
  induction arguments generalizing place proceed with
  | nil =>
      rw [overArguments]
      exact hproceed [] rfl (by simp)
  | cons e rest ih =>
      obtain ⟨he, hrest⟩ := List.forall_mem_cons.mp harguments
      rw [overArguments_cons]
      refine Expr.over_succeeds he fun w hw => ih hrest fun ws hlength hws => ?_
      exact hproceed (w :: ws) (by simp [hlength]) (List.forall_mem_cons.mpr ⟨hw, hws⟩)

/-- A handler that judges by the number of operands takes any that can be
lowered. -/
theorem callHandler_succeeds (target : Option Expr) (hjudges : handler.generator.JudgesByCount)
    (hoperands : ∀ e ∈ target.toList ++ arguments, e.Lowers registry limit depth)
    (hemits : handler.generator.EmitsFor (target.toList ++ arguments).length) :
    ∃ n, (callHandler handler method (target.map (Expr.asOperand registry limit depth))
      (arguments.map (Expr.asOperand registry limit depth))).outcome = .ok n := by
  have htarget : ∃ nt, Option.Rel (Expr.LowersTo registry limit depth) target nt := by
    cases target with
    | none => exact ⟨none, .none⟩
    | some e =>
        obtain ⟨n, hn⟩ := hoperands e (by simp)
        exact ⟨some n, .some hn⟩
  obtain ⟨nt, hnt⟩ := htarget
  obtain ⟨ns, hns⟩ := exists_forall₂ (R := Expr.LowersTo registry limit depth)
    fun e he => hoperands e (List.mem_append_right target.toList he)
  have hlength : (nt.toList ++ ns).length = (target.toList ++ arguments).length := by
    rw [List.length_append, List.length_append, hns.length_eq]
    cases hnt <;> rfl
  rw [← hlength] at hemits
  obtain ⟨n, hn⟩ := hjudges ⟨method, target, arguments, nt, ns⟩ hemits
  exact ⟨n, callHandler_outcome_iff.mpr ⟨nt, ns, hnt, hns, hn⟩⟩

/-- A call can be lowered exactly if a handler is found that takes so many
operands, and the operands can be lowered. -/
theorem Expr.lowers_call_iff (hjudges : registry.JudgesByCount) :
    (call method target arguments type).Lowers registry limit depth ↔
      ∃ handler, registry.lookup method = some handler ∧
        (∀ e ∈ target.toList ++ arguments, e.Lowers registry limit depth) ∧
        handler.generator.EmitsFor (target.toList ++ arguments).length := by
  constructor
  · intro h
    exact lowers_of_call h
  · intro h
    obtain ⟨handler, hlookup, hoperands, hemits⟩ := h
    have hhandler := hjudges method handler hlookup
    unfold Lowers LowersTo
    rw [lower_call_eq hlookup]
    have harguments : ∀ e ∈ arguments, e.Lowers registry limit depth := fun e he =>
      hoperands e (List.mem_append_right _ he)
    cases target with
    | none =>
        rw [overTarget]
        refine overArguments_succeeds harguments fun ws hlength hws => ?_
        refine callHandler_succeeds none hhandler hws ?_
        rw [List.length_append, hlength, ← List.length_append]
        exact hemits
    | some e =>
        rw [overTarget_some]
        refine over_succeeds (hoperands e (by simp)) fun w hw => ?_
        refine overArguments_succeeds harguments fun ws hlength hws => ?_
        refine callHandler_succeeds (some w) hhandler ?_ ?_
        · exact List.forall_mem_cons.mpr ⟨hw, hws⟩
        · rw [List.length_append, hlength, ← List.length_append]
          exact hemits

end

/-! ## Expressions -/

/-- The model can be lowered. -/
def QueryModel.Lowers (registry : Registry) (limit depth : Nat) (model : QueryModel) : Prop :=
  ∃ query, model.LowersTo registry limit depth query

namespace Expr

theorem lowers_subquery_iff {model : QueryModel} :
    (subquery model).Lowers registry limit depth ↔
      depth < limit ∧ model.Lowers registry limit (depth + 1) := by
  unfold Lowers
  simp only [lowersTo_subquery]
  constructor
  · intro h
    obtain ⟨_, hdepth, query, hquery, -⟩ := h
    exact ⟨hdepth, query, hquery⟩
  · intro h
    obtain ⟨hdepth, query, hquery⟩ := h
    exact ⟨_, hdepth, query, hquery, rfl⟩

theorem lowers_conditional_iff {test a b : Expr} :
    (conditional test (some a) (some b)).Lowers registry limit depth ↔
      a.fitsBeside b = true ∧ test.Lowers registry limit depth ∧
        a.Lowers registry limit depth ∧ b.Lowers registry limit depth := by
  constructor
  · intro h
    obtain ⟨n, hn⟩ := h
    obtain ⟨_, _, ⟨⟩, ⟨⟩, hfit, nt, na, nb, ht, ha, hb, -⟩ := lowersTo_conditional.mp hn
    exact ⟨hfit, ⟨nt, ht⟩, ⟨na, ha⟩, ⟨nb, hb⟩⟩
  · intro h
    obtain ⟨hfit, ⟨nt, ht⟩, ⟨na, ha⟩, ⟨nb, hb⟩⟩ := h
    exact ⟨_, lowersTo_conditional.mpr ⟨a, b, rfl, rfl, hfit, nt, na, nb, ht, ha, hb, rfl⟩⟩

theorem lowers_coalesce_iff {a b : Expr} :
    (coalesce (some a) (some b)).Lowers registry limit depth ↔
      a.fitsBeside b = true ∧ a.Lowers registry limit depth ∧ b.Lowers registry limit depth := by
  constructor
  · intro h
    obtain ⟨n, hn⟩ := h
    obtain ⟨_, _, ⟨⟩, ⟨⟩, hfit, na, nb, ha, hb, -⟩ := lowersTo_coalesce.mp hn
    exact ⟨hfit, ⟨na, ha⟩, ⟨nb, hb⟩⟩
  · intro h
    obtain ⟨hfit, ⟨na, ha⟩, ⟨nb, hb⟩⟩ := h
    exact ⟨_, lowersTo_coalesce.mpr ⟨a, b, rfl, rfl, hfit, na, nb, ha, hb, rfl⟩⟩

/-- What is asked of a node, apart from what is asked of its operands. -/
def NodeLowers (registry : Registry) (limit depth : Nat) : Expr → Prop
  | .call method target arguments _ =>
    ∃ handler, registry.lookup method = some handler ∧
      handler.generator.EmitsFor (target.toList ++ arguments).length
  | .subquery model => depth < limit ∧ model.Lowers registry limit (depth + 1)
  | e => e.checkBranches = .ok ()

/-- An expression can be lowered exactly if its node and its operands can. -/
theorem lowers_iff (hjudges : registry.JudgesByCount) {e : Expr} :
    e.Lowers registry limit depth ↔
      e.NodeLowers registry limit depth ∧ ∀ operand ∈ e.operands,
        operand.Lowers registry limit depth := by
  constructor
  · intro h
    refine ⟨?_, fun operand hoperand => h.operands hoperand⟩
    cases e with
    | call method target arguments type =>
        obtain ⟨handler, hlookup, -, hemits⟩ := lowers_of_call h
        exact ⟨handler, hlookup, hemits⟩
    | subquery model => exact lowers_subquery_iff.mp h
    | _ => exact h.checkBranches
  · intro h
    obtain ⟨hnode, hoperands⟩ := h
    cases e with
    | constant value => cases value <;> exact ⟨_, rfl⟩
    | parameter name type => exact ⟨_, rfl⟩
    | source name type => exact ⟨_, rfl⟩
    | unary operator operand type =>
        obtain ⟨n, hn⟩ := hoperands operand (by simp [operands])
        exact ⟨_, lowersTo_unary.mpr ⟨n, hn, rfl⟩⟩
    | binary operator left right =>
        obtain ⟨n, hn⟩ := hoperands left (by simp [operands])
        obtain ⟨m, hm⟩ := hoperands right (by simp [operands])
        exact ⟨_, lowersTo_binary.mpr ⟨n, m, hn, hm, rfl⟩⟩
    | member target name type =>
        obtain ⟨n, hn⟩ := hoperands target (by simp [operands])
        exact ⟨_, lowersTo_member.mpr ⟨n, hn, rfl⟩⟩
    | call method target arguments type =>
        obtain ⟨handler, hlookup, hemits⟩ := hnode
        exact (lowers_call_iff hjudges).mpr ⟨handler, hlookup, hoperands, hemits⟩
    | conditional test whenTrue whenFalse =>
        obtain ⟨a, b, rfl, rfl, hfit⟩ := checkBranches_conditional_iff.mp hnode
        exact lowers_conditional_iff.mpr ⟨hfit, hoperands test (by simp [operands]),
          hoperands a (by simp [operands]), hoperands b (by simp [operands])⟩
    | coalesce left right =>
        obtain ⟨a, b, rfl, rfl, hfit⟩ := checkBranches_coalesce_iff.mp hnode
        exact lowers_coalesce_iff.mpr ⟨hfit, hoperands a (by simp [operands]),
          hoperands b (by simp [operands])⟩
    | subquery model => exact lowers_subquery_iff.mpr hnode

/-- Replacing subqueries in the operands of a node changes nothing for the
node, except for its branches. -/
theorem Replaced.nodeLowers {P : QueryModel → Expr → Prop} {e e' : Expr} (h : e.Replaced P e')
    (hsubquery : ∀ model, e ≠ .subquery model) (hnode : e.NodeLowers registry limit depth)
    (hcheck : e'.checkBranches = .ok ()) : e'.NodeLowers registry limit depth' := by
  cases h with
  | subquery => exact absurd rfl (hsubquery _)
  | @call method target target' arguments arguments' type htarget harguments =>
      obtain ⟨handler, hlookup, hemits⟩ := hnode
      have hlength : (target.toList ++ arguments).length =
          (target'.toList ++ arguments').length := by
        rw [List.length_append, List.length_append, harguments.length_eq]
        cases htarget <;> rfl
      rw [hlength] at hemits
      exact ⟨handler, hlookup, hemits⟩
  | _ => exact hcheck

/-- Where every subquery is replaced by what can be lowered, and the branches
still fit, the whole expression can be lowered. -/
theorem Replaced.lowers (hjudges : registry.JudgesByCount) {P : QueryModel → Expr → Prop}
    {e e' : Expr} (h : e.Replaced P e') (he : e.Lowers registry limit depth)
    (hsound : e'.IsSound)
    (hresults : ∀ model result, e.Holds model → P model result →
      result.Lowers registry limit depth') :
    e'.Lowers registry limit depth' := by
  induction e using inductionOnOperands generalizing e' with
  | step e ih =>
      rcases h.replaced_cases with ⟨model, rfl, hresult⟩ | ⟨hsubquery, -, hoperands⟩
      · exact hresults model e' (by simp) hresult
      · obtain ⟨hnode, hlowers⟩ := (lowers_iff hjudges).mp he
        obtain ⟨hcheck, hsounds⟩ := isSound_iff_operands.mp hsound
        refine (lowers_iff hjudges).mpr ⟨h.nodeLowers hsubquery hnode hcheck, ?_⟩
        intro operand' hoperand'
        obtain ⟨operand, hoperand, hreplaced⟩ := exists_left_of_forall₂ hoperands hoperand'
        refine ih operand hoperand hreplaced (hlowers operand hoperand)
          (hsounds operand' hoperand') ?_
        intro model result hholds hresult
        exact hresults model result (holds_iff_operands.mpr (.inr ⟨operand, hoperand, hholds⟩))
          hresult

end Expr

/-! ## Result operators -/

/-- What the place of a result operator in a list depends on. -/
inductive OperatorKind where
  | distinct
  | skip
  | take
  | reduction

namespace OperatorKind

/-- Whether an operator of the first kind may stand anywhere before one of the
second: nothing follows a reduction, and no rows are skipped once some were
taken. -/
def MayPrecede (first second : OperatorKind) : Prop :=
  first ≠ .reduction ∧ ¬(first = .take ∧ second = .skip)

end OperatorKind

/-- The kind of a result operator. -/
def ResultOperator.kind : ResultOperator → OperatorKind
  | .distinct => .distinct
  | .skip _ => .skip
  | .take _ => .take
  | _ => .reduction

/-- The kind of a stage. -/
def Stage.kind : Stage → OperatorKind
  | .distinct => .distinct
  | .skip _ => .skip
  | .take _ => .take
  | .reduce _ => .reduction

namespace Tail

/-- What a tail admits after a further stage. -/
theorem admits_after_iff {tail : Tail} {first second : Stage} :
    (tail.after first).Admits second ↔
      tail.Admits second ∧ first.kind.MayPrecede second.kind := by
  unfold Admits OperatorKind.MayPrecede
  cases first with
  | distinct => simp [after, distinctly, Stage.kind]
  | skip count => simp [after, skipping, Stage.kind]
  | take count =>
      cases second <;> simp [after, taking, Stage.kind]
  | reduce aggregate => simp [after, reducedBy, Stage.kind]

/-- Several stages may follow exactly if each of them may by itself, and each
may precede those after it. -/
theorem admitsAll_iff {tail : Tail} {stages : List Stage} :
    tail.AdmitsAll stages ↔
      (∀ stage ∈ stages, tail.Admits stage) ∧
        (stages.map Stage.kind).Pairwise OperatorKind.MayPrecede := by
  induction stages generalizing tail with
  | nil => simp [AdmitsAll]
  | cons stage rest ih =>
      simp only [AdmitsAll, ih, admits_after_iff, List.forall_mem_cons, List.map_cons,
        List.pairwise_cons, List.forall_mem_map, forall_and]
      tauto

theorem empty_admits (stage : Stage) : empty.Admits stage :=
  ⟨rfl, fun _ _ => rfl⟩

end Tail

namespace ResultOperator

/-- The stage of an operator is of the same kind. -/
theorem stage_kind {operator : ResultOperator} {stage : Stage}
    (h : (operator.stage registry limit depth).outcome = .ok stage) :
    stage.kind = operator.kind := by
  cases operator with
  | take | skip | all | contains =>
      obtain ⟨n, -, rfl⟩ := Traced.outcome_map_eq_ok.mp h
      rfl
  | _ =>
      obtain rfl := Except.ok.inj h
      rfl

/-- An operator has a stage exactly if its operand can be lowered. -/
theorem exists_stage_iff {operator : ResultOperator} :
    (∃ stage, (operator.stage registry limit depth).outcome = .ok stage) ↔
      ∀ e, operator.operand? = some e → e.Lowers registry limit depth := by
  have hoperand : ∀ (e : Expr) (f : Node → Stage),
      (∃ stage, (f <$> e.lower registry limit depth).outcome = .ok stage) ↔
        ∀ e', some e = some e' → e'.Lowers registry limit depth := by
    intro e f
    simp only [Traced.outcome_map_eq_ok, Option.some.injEq, forall_eq']
    constructor
    · intro h
      obtain ⟨_, n, hn, -⟩ := h
      exact ⟨n, hn⟩
    · intro h
      obtain ⟨n, hn⟩ := h
      exact ⟨f n, n, hn, rfl⟩
  have hplain : ∀ {stage : Stage},
      (∃ stage', (pure stage : Lowering Stage).outcome = .ok stage') ↔
        ∀ e : Expr, none = some e → e.Lowers registry limit depth := by
    intro stage
    simp
  cases operator with
  | take rows => exact hoperand rows .take
  | skip rows => exact hoperand rows .skip
  | all predicate => exact hoperand predicate fun n => .reduce (.all n)
  | contains item => exact hoperand item fun n => .reduce (.contains n)
  | _ => exact hplain

private theorem Related.kind_eq {R : Expr → Expr → Prop} {operator operator' : ResultOperator}
    (h : operator.Related R operator') : operator'.kind = operator.kind := by
  unfold Related at h
  cases operator with
  | all | take | skip | contains =>
      obtain ⟨e', -, rfl⟩ := h
      rfl
  | _ =>
      obtain rfl := h
      rfl

end ResultOperator

/-- Operators can be lowered exactly if their operands can and each may precede
those after it. -/
theorem exists_lowerOperators_iff {operators : List ResultOperator} :
    (∃ tail, (lowerOperators registry limit depth .empty operators).outcome = .ok tail) ↔
      (∀ operator ∈ operators, ∀ e, operator.operand? = some e →
        e.Lowers registry limit depth) ∧
        (operators.map ResultOperator.kind).Pairwise OperatorKind.MayPrecede := by
  have hkinds : ∀ {stages : List Stage},
      List.Forall₂ (fun operator stage =>
        (ResultOperator.stage registry limit depth operator).outcome = .ok stage)
        operators stages → stages.map Stage.kind = operators.map ResultOperator.kind := by
    intro stages hstages
    induction hstages with
    | nil => rfl
    | cons hstage _ ih => rw [List.map_cons, List.map_cons, ResultOperator.stage_kind hstage, ih]
  simp only [lowerOperators_eq_ok, mapM_stage_outcome_iff, Tail.admitsAll_iff]
  constructor
  · intro h
    obtain ⟨_, stages, hstages, ⟨-, hpairwise⟩, -⟩ := h
    rw [hkinds hstages] at hpairwise
    refine ⟨?_, hpairwise⟩
    intro operator hoperator
    obtain ⟨stage, -, hstage⟩ := exists_right_of_forall₂ hstages hoperator
    exact ResultOperator.exists_stage_iff.mp ⟨stage, hstage⟩
  · intro h
    obtain ⟨hoperands, hpairwise⟩ := h
    obtain ⟨stages, hstages⟩ := exists_forall₂ fun operator hoperator =>
      ResultOperator.exists_stage_iff.mpr (hoperands operator hoperator)
    rw [← hkinds hstages] at hpairwise
    exact ⟨_, stages, hstages, ⟨fun stage _ => Tail.empty_admits stage, hpairwise⟩, rfl⟩

/-! ## Models -/

/-- A model can be lowered exactly if it has a source, its expressions can be
lowered, and its operators are in an order that a query can follow. -/
theorem QueryModel.lowers_iff {model : QueryModel} :
    model.Lowers registry limit depth ↔
      model.source.isSome = true ∧
        (∀ e ∈ model.sourceExpressions, e.Lowers registry limit depth) ∧
        (∀ e ∈ model.clauseExpressions, e.Lowers registry limit depth) ∧
        (model.operators.map ResultOperator.kind).Pairwise OperatorKind.MayPrecede := by
  constructor
  · intro h
    obtain ⟨query, hquery⟩ := h
    obtain ⟨source, hsource, hlower⟩ := hquery.source
    have hoperators := exists_lowerOperators_iff.mp ⟨query.tail, hquery.tail⟩
    refine ⟨by rw [hsource]; rfl, ?_, fun e he => hquery.lowers he, hoperators.2⟩
    intro e he
    rcases List.mem_append.mp he with he | he
    · rw [hsource] at he
      rw [List.mem_singleton.mp he]
      exact ⟨_, hlower⟩
    · obtain ⟨j, hj, hejoin⟩ := List.mem_flatMap.mp he
      obtain ⟨join, -, hjoin⟩ := exists_right_of_forall₂ (lowerJoins_outcome_iff.mp hquery.joins) hj
      obtain ⟨a, b, ha, hb, -⟩ := hjoin.on
      simp only [List.mem_cons, List.not_mem_nil, or_false] at hejoin
      rcases hejoin with rfl | rfl | rfl
      · exact ⟨_, hjoin.source⟩
      · exact ⟨a, ha⟩
      · exact ⟨b, hb⟩
  · intro h
    obtain ⟨hsome, hsources, hclauses, hkinds⟩ := h
    obtain ⟨hselector, horderings, hoperators, hfilter, hhaving⟩ :=
      forall_clauseExpressions.mp hclauses
    have hoption : ∀ {o : Option Expr}, (∀ e, o = some e → e.Lowers registry limit depth) →
        ∃ p, (lowerOption registry limit depth o).outcome = .ok p := by
      intro o hclause
      cases o with
      | none => exact ⟨none, lowerOption_outcome_iff.mpr .none⟩
      | some e =>
          obtain ⟨n, hn⟩ := hclause e rfl
          exact ⟨some n, lowerOption_outcome_iff.mpr (.some hn)⟩
    obtain ⟨source, hsource⟩ := Option.isSome_iff_exists.mp hsome
    obtain ⟨sourceNode, hsourceNode⟩ :=
      hsources source (by simp [sourceExpressions, hsource])
    obtain ⟨filter, hfilter⟩ := hoption hfilter
    obtain ⟨having, hhaving⟩ := hoption hhaving
    obtain ⟨select, hselect⟩ := hoption hselector
    have hjoins : ∃ joins, List.Forall₂ (JoinClause.LowersTo registry limit depth)
        model.joins joins := by
      refine exists_forall₂ fun j hj => ?_
      have hmem : ∀ e ∈ [j.sequence, j.outerKey, j.innerKey], e ∈ model.sourceExpressions :=
        fun e he => List.mem_append_right _ (List.mem_flatMap.mpr ⟨j, hj, he⟩)
      obtain ⟨n, hn⟩ := hsources j.sequence (hmem _ (by simp))
      obtain ⟨a, ha⟩ := hsources j.outerKey (hmem _ (by simp))
      obtain ⟨b, hb⟩ := hsources j.innerKey (hmem _ (by simp))
      exact ⟨⟨n, j.item, .equality a b⟩, hn, rfl, a, b, ha, hb, rfl⟩
    have horder : ∃ order, List.Forall₂ (OrderClause.LowersTo registry limit depth)
        model.orderings order := by
      refine exists_forall₂ fun o ho => ?_
      obtain ⟨n, hn⟩ := horderings o ho
      exact ⟨⟨n, o.direction⟩, hn, rfl⟩
    obtain ⟨joins, hjoins⟩ := hjoins
    obtain ⟨order, horder⟩ := horder
    obtain ⟨tail, htail⟩ := exists_lowerOperators_iff.mpr ⟨hoperators, hkinds⟩
    exact ⟨⟨sourceNode, model.item, joins, filter, having, order, select, tail.distinct,
      tail.skip, tail.take, tail.aggregate⟩, ⟨source, hsource, hsourceNode⟩, rfl,
      lowerJoins_outcome_iff.mpr hjoins, hfilter, hhaving, lowerOrderings_outcome_iff.mpr horder,
      hselect, htail⟩

namespace QueryModel

variable {model model' : QueryModel}

/-- A model with other clauses can be lowered if these can. -/
theorem Related.lowers {R : Expr → Expr → Prop} (h : model.Related R model')
    (hmodel : model.Lowers registry limit depth)
    (hclauses : ∀ e' ∈ model'.clauseExpressions, e'.Lowers registry limit depth) :
    model'.Lowers registry limit depth := by
  obtain ⟨hsome, hsources, -, hkinds⟩ := lowers_iff.mp hmodel
  have hsame : model'.sourceExpressions = model.sourceExpressions := by
    unfold sourceExpressions
    rw [h.source, h.joins]
  have hmap : ∀ {operators operators' : List ResultOperator},
      List.Forall₂ (ResultOperator.Related R) operators operators' →
        operators'.map ResultOperator.kind = operators.map ResultOperator.kind := by
    intro operators operators' hrelated
    induction hrelated with
    | nil => rfl
    | cons hhead _ ih => rw [List.map_cons, List.map_cons, hhead.kind_eq, ih]
  refine lowers_iff.mpr ⟨?_, ?_, hclauses, ?_⟩
  · rw [h.source]
    exact hsome
  · rw [hsame]
    exact hsources
  · rw [hmap h.operators]
    exact hkinds

/-- A model can be lowered where its expressions can. -/
theorem Lowers.of_expressions (h : model.Lowers registry limit depth)
    (hexpressions : ∀ e : Expr, e.Lowers registry limit depth → e.Lowers registry limit depth') :
    model.Lowers registry limit depth' := by
  obtain ⟨hsome, hsources, hclauses, hkinds⟩ := lowers_iff.mp h
  exact lowers_iff.mpr ⟨hsome, fun e he => hexpressions e (hsources e he),
    fun e he => hexpressions e (hclauses e he), hkinds⟩

private theorem Lowers.withSource {e : Expr} (h : model.Lowers registry limit depth)
    (he : e.Lowers registry limit depth) : (model.withSource e).Lowers registry limit depth := by
  obtain ⟨query, hquery⟩ := h
  obtain ⟨n, hn⟩ := he
  exact ⟨_, hquery.withSource hn⟩

/-- The subqueries in the clauses of a model that can be lowered can be
lowered. -/
theorem Lowers.nests {nested : QueryModel} (h : model.Lowers registry limit depth)
    (hnests : model.Nests nested) :
    depth < limit ∧ nested.Lowers registry limit (depth + 1) := by
  obtain ⟨query, hquery⟩ := h
  obtain ⟨e, he, hholds⟩ := hnests
  exact Expr.lowers_subquery_iff.mp ((hquery.lowers he).of_holds hholds)

/-- What can be lowered fits. The induction is on how deep subqueries may
nest. -/
theorem Lowers.fits (h : model.Lowers registry limit depth) : model.Fits := by
  obtain ⟨budget, hbudget⟩ : ∃ budget, limit ≤ depth + budget := ⟨limit, by omega⟩
  induction budget generalizing model depth with
  | zero =>
      refine fits_iff.mpr ⟨fun e he => ((lowers_iff.mp h).2.2.1 e he).isSound, ?_⟩
      intro nested hnests
      have hdepth := (h.nests hnests).1
      omega
  | succ budget ih =>
      refine fits_iff.mpr ⟨fun e he => ((lowers_iff.mp h).2.2.1 e he).isSound, ?_⟩
      intro nested hnests
      exact ih (h.nests hnests).2 (by omega)

end QueryModel

/-! ## Less deep -/

/-- What can be lowered can be lowered where it stands less deep. The induction
is on how many subqueries may still be entered. -/
theorem Expr.Lowers.lessDeep (hjudges : registry.JudgesByCount) {e : Expr}
    (h : e.Lowers registry limit depth) (hle : depth' ≤ depth) :
    e.Lowers registry limit depth' := by
  obtain ⟨budget, hbudget⟩ : ∃ budget, limit ≤ depth + budget := ⟨limit, by omega⟩
  have hself : ∀ {e : Expr} {depth : Nat}, e.Lowers registry limit depth →
      e.Replaced (fun model result => result = .subquery model) e := by
    intro e depth h
    exact (Replaced.self_iff h.isSound).mpr fun _ _ => rfl
  induction budget generalizing e depth depth' with
  | zero =>
      refine (hself h).lowers hjudges h h.isSound ?_
      intro model result hholds _
      have hdepth := (lowers_subquery_iff.mp (h.of_holds hholds)).1
      omega
  | succ budget ih =>
      refine (hself h).lowers hjudges h h.isSound ?_
      intro model result hholds hresult
      obtain ⟨hdepth, hmodel⟩ := lowers_subquery_iff.mp (h.of_holds hholds)
      rw [hresult]
      refine lowers_subquery_iff.mpr ⟨by omega, hmodel.of_expressions fun e he => ?_⟩
      exact ih he (by omega) (by omega)

/-! ## A source taken apart -/

/-- What stands in place of a branch can be lowered where the subquery can. The
induction is on the decisions that are taken apart. -/
theorem Expr.IsBranch.inPlace_lowers (hjudges : registry.JudgesByCount) {reader : QueryModel}
    {e : Expr} (hreader : reader.Lowers registry limit (depth + 1)) (hdepth : depth < limit)
    (h : e.IsBranch reader.sourceNames) (he : e.Lowers registry limit (depth + 1)) :
    (e.inPlace reader).Lowers registry limit depth := by
  induction h with
  | @whole e hsound hexpands =>
      cases hcollection : e.type.isCollection with
      | true =>
          rw [inPlace_of_collection hexpands hcollection]
          exact lowers_subquery_iff.mpr ⟨hdepth, hreader.withSource he⟩
      | false =>
          rw [inPlace_of_not_collection hexpands hcollection]
          exact he.lessDeep hjudges (Nat.le_succ depth)
  | @conditional test a b htest hexpands ha hb iha ihb =>
      obtain ⟨hfit, hta, hla, hlb⟩ := lowers_conditional_iff.mp he
      rw [inPlace_conditional hexpands]
      exact lowers_conditional_iff.mpr ⟨fitsBeside_inPlace hla.isSound hlb.isSound hfit,
        hta.lessDeep hjudges (Nat.le_succ depth), iha hla, ihb hlb⟩
  | @coalesce a b hleft hexpands ha hb iha ihb =>
      obtain ⟨hfit, hla, hlb⟩ := lowers_coalesce_iff.mp he
      obtain ⟨n, hn⟩ := hla.lessDeep hjudges (Nat.le_succ depth)
      have hpresent : a.isPresent.Lowers registry limit depth :=
        ⟨_, lowersTo_binary.mpr ⟨n, .constant .null, hn, rfl, rfl⟩⟩
      rw [inPlace_coalesce hexpands]
      exact lowers_conditional_iff.mpr ⟨fitsBeside_inPlace hla.isSound hlb.isSound hfit,
        hpresent, iha hla, ihb hlb⟩

end ObjectQuery
