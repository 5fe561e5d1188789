import ObjectQuery.Proofs.Comparison
import ObjectQuery.Proofs.Expansion.Calls
import ObjectQuery.Proofs.Lowering.Calls

/-!
# Two lowerings side by side

A model can be lowered with two registries and under two limits. Where the
registries have the same handlers for the methods that the model calls, and
the limits are the same, or the first run may give up at its own, smaller
one, the two runs agree: they go through the same steps until the first one
gives up. A distributed call is lowered more than once, with a branch in the
place of an operand, but always as a call of the same method.

On the way, every subquery that the first run enters is one of at most as
many around what is lowered as its limit says.

## Main definitions

* `Lowering.Comparable` — by what two lowerings are compared.
* `Expr.Agrees` — an expression is lowered in agreement, also as an operand
  that is taken apart.

## Main results

* `QueryModel.lower_agrees` — two lowerings of a model agree.
-/

namespace ObjectQuery

open Hql (Node)
open Traced (Comparison)
open Traced.Comparison (Agree)

/-- The comparison is one of a lowering under the first limit with one under the
second. -/
structure Lowering.Comparable (c : Comparison LoweringEvent LoweringError)
    (limit limit' : Nat) : Prop where
  /-- Only the smaller limit may refuse what the other one admits. -/
  refuses : limit' = limit ∨ limit ≤ limit' ∧ c.GivesUp (.tooDeep limit)
  /-- Everything may be seen but the entering of subqueries too many. -/
  expects : ∀ event, (∀ depth, event = .entered depth → depth ≤ limit) → c.Expects event

/-- The operands are written in the same way, and lowered in agreement. -/
structure Operand.Agrees (c : Comparison LoweringEvent LoweringError) (a b : Operand) :
    Prop where
  written : b.written = a.written
  lowered : c.Agree a.lowered b.lowered

/-- The expression is lowered in agreement, by itself and in the place of an
operand over which a call is distributed. -/
structure Expr.Agrees (c : Comparison LoweringEvent LoweringError) (registry registry' : Registry)
    (limit limit' depth : Nat) (e : Expr) : Prop where
  lower : c.Agree (e.lower registry limit depth) (e.lower registry' limit' depth)
  overBranch : ∀ (place : OperandPlace) (side : BranchSide)
    (proceed proceed' : Operand → Lowering Node),
    (∀ a b, Operand.Agrees c a b → c.Agree (proceed a) (proceed' b)) →
      c.Agree (overBranch registry limit depth place side (some e) proceed)
        (overBranch registry' limit' depth place side (some e) proceed')

variable {c : Comparison LoweringEvent LoweringError} {registry registry' : Registry}
  {limit limit' depth : Nat}

/-! ## Calls -/

namespace Lowering.Comparable

/-- Whatever is no entering of a subquery is expected. -/
theorem expects_of_ne (hc : Comparable c limit limit') {event : LoweringEvent}
    (h : ∀ depth, event ≠ .entered depth) : c.Expects event :=
  hc.expects event fun depth heq => absurd heq (h depth)

/-- A handler makes the same of operands that agree. -/
theorem callHandler_agrees (hc : Comparable c limit limit') (handler : Handler)
    (method : MethodSignature) {target target' : Option Operand}
    {arguments arguments' : List Operand} (htarget : Option.Rel (Operand.Agrees c) target target')
    (harguments : List.Forall₂ (Operand.Agrees c) arguments arguments') :
    c.Agree (callHandler handler method target arguments)
      (callHandler handler method target' arguments') := by
  have hwrittenTarget : target'.map Operand.written = target.map Operand.written := by
    cases htarget with
    | none => rfl
    | some h => exact congrArg some h.written
  have hwrittenArguments : arguments'.map Operand.written = arguments.map Operand.written := by
    induction harguments with
    | nil => rfl
    | cons h _ ih => rw [List.map_cons, List.map_cons, h.written, ih]
  have hloweredArguments : c.Agree (arguments.mapM Operand.lowered)
      (arguments'.mapM Operand.lowered) :=
    .mapM (harguments.imp fun _ _ h => h.lowered)
  have hhandled : c.Expects (.handled method handler.name) :=
    hc.expects_of_ne fun depth heq => by cases heq
  -- once the target is lowered, both runs go on with the arguments
  have hrest (loweredTarget : Option Node) :=
    hloweredArguments.bind fun loweredArguments _ =>
      (Agree.emit hhandled).bind fun _ _ => Agree.ofExcept <| handler.generator.emit
        ⟨method, target.map Operand.written, arguments.map Operand.written, loweredTarget,
          loweredArguments⟩
  unfold callHandler
  rw [hwrittenTarget, hwrittenArguments]
  cases htarget with
  | none => exact hrest none
  | some h => exact h.lowered.bind fun n _ => hrest (some n)

end Lowering.Comparable

private theorem Expr.Agrees.asOperand {e : Expr}
    (h : e.Agrees c registry registry' limit limit' depth) :
    Operand.Agrees c (e.asOperand registry limit depth) (e.asOperand registry' limit' depth) :=
  ⟨rfl, h.lower⟩

/-- A call with an expression in the place of an operand. -/
theorem Expr.Agrees.over {e : Expr} (h : e.Agrees c registry registry' limit limit' depth)
    (place : OperandPlace) {proceed proceed' : Operand → Lowering Node}
    (hproceed : ∀ a b, Operand.Agrees c a b → c.Agree (proceed a) (proceed' b)) :
    c.Agree (e.over registry limit depth place proceed)
      (e.over registry' limit' depth place proceed') := by
  unfold Expr.over
  cases place.expansion with
  | never => exact hproceed _ _ h.asOperand
  | bareBranching => exact h.overBranch place .whenTrue proceed proceed' hproceed

private theorem overTarget_agrees {target : Option Expr}
    (h : ∀ e ∈ target.toList, e.Agrees c registry registry' limit limit' depth)
    (place : OperandPlace) {proceed proceed' : Option Operand → Lowering Node}
    (hproceed : ∀ o o', Option.Rel (Operand.Agrees c) o o' → c.Agree (proceed o) (proceed' o')) :
    c.Agree (overTarget registry limit depth place target proceed)
      (overTarget registry' limit' depth place target proceed') := by
  cases target with
  | none =>
      rw [overTarget, overTarget]
      exact hproceed none none .none
  | some e =>
      rw [overTarget_some, overTarget_some]
      exact (h e (by simp)).over place fun a b hab => hproceed _ _ (.some hab)

private theorem overArguments_agrees {arguments : List Expr}
    (h : ∀ e ∈ arguments, e.Agrees c registry registry' limit limit' depth)
    (place : OperandPlace) {proceed proceed' : List Operand → Lowering Node}
    (hproceed : ∀ os os', List.Forall₂ (Operand.Agrees c) os os' →
      c.Agree (proceed os) (proceed' os')) :
    c.Agree (overArguments registry limit depth place arguments proceed)
      (overArguments registry' limit' depth place arguments proceed') := by
  induction arguments generalizing place proceed proceed' with
  | nil =>
      rw [overArguments, overArguments]
      exact hproceed [] [] .nil
  | cons e rest ih =>
      rw [overArguments_cons, overArguments_cons]
      refine (h e List.mem_cons_self).over place fun a b hab => ?_
      exact ih (fun e he => h e (List.mem_cons_of_mem _ he)) place.next fun os os' hrest =>
        hproceed _ _ (.cons hab hrest)

/-! ## Branches -/

private theorem lowerBranch_agrees {branch : Option Expr}
    (h : ∀ e ∈ branch.toList, e.Agrees c registry registry' limit limit' depth)
    (side : BranchSide) :
    c.Agree (lowerBranch registry limit depth side branch)
      (lowerBranch registry' limit' depth side branch) := by
  cases branch with
  | none =>
      rw [lowerBranch, lowerBranch]
      exact .throw _
  | some e =>
      rw [lowerBranch, lowerBranch]
      exact (h e (by simp)).lower

private theorem overBranch_agrees {branch : Option Expr}
    (h : ∀ e ∈ branch.toList, e.Agrees c registry registry' limit limit' depth)
    (place : OperandPlace) (side : BranchSide) {proceed proceed' : Operand → Lowering Node}
    (hproceed : ∀ a b, Operand.Agrees c a b → c.Agree (proceed a) (proceed' b)) :
    c.Agree (overBranch registry limit depth place side branch proceed)
      (overBranch registry' limit' depth place side branch proceed') := by
  cases branch with
  | none =>
      rw [overBranch, overBranch]
      exact .throw _
  | some e => exact (h e (by simp)).overBranch place side proceed proceed' hproceed

/-- An expression whose operands are lowered in agreement is, once it is lowered in
agreement by itself. -/
theorem Expr.agrees_of_lower (hc : Lowering.Comparable c limit limit') {e : Expr}
    (hlower : c.Agree (e.lower registry limit depth) (e.lower registry' limit' depth))
    (h : ∀ operand ∈ e.operands, operand.Agrees c registry registry' limit limit' depth) :
    e.Agrees c registry registry' limit limit' depth := by
  refine ⟨hlower, fun place side proceed proceed' hproceed => ?_⟩
  cases hexpandable : e.isExpandable with
  | false =>
      rw [overBranch_of_not_isExpandable hexpandable, overBranch_of_not_isExpandable hexpandable]
      exact hproceed _ _ ⟨rfl, hlower⟩
  | true =>
      have hdistributed : c.Expects (.distributed place.position place.method) :=
        hc.expects_of_ne fun depth heq => by cases heq
      cases e with
      | conditional test whenTrue whenFalse =>
          rw [overBranch_conditional hexpandable, overBranch_conditional hexpandable]
          refine (Agree.ofExcept _).bind fun _ _ => (h test (by simp [operands])).lower.bind
            fun n _ => (Agree.emit hdistributed).bind fun _ _ => ?_
          refine (overBranch_agrees (fun a ha => h a (by simp [operands, ha])) place .whenTrue
            hproceed).bind fun na _ => ?_
          exact (overBranch_agrees (fun b hb => h b (by simp [operands, hb])) place .whenFalse
            hproceed).bind fun nb _ => .pure _
      | coalesce left right =>
          rw [overBranch_coalesce hexpandable, overBranch_coalesce hexpandable]
          refine (Agree.ofExcept _).bind fun _ _ => (lowerBranch_agrees
            (fun a ha => h a (by simp [operands, ha])) .coalesceLeft).bind
              fun n _ => (Agree.emit hdistributed).bind fun _ _ => ?_
          refine (overBranch_agrees (fun a ha => h a (by simp [operands, ha])) place .coalesceLeft
            hproceed).bind fun na _ => ?_
          exact (overBranch_agrees (fun b hb => h b (by simp [operands, hb])) place .coalesceRight
            hproceed).bind fun nb _ => .pure _
      | _ => cases hexpandable

/-! ## Clauses -/

private theorem lowerOption_agrees {o : Option Expr}
    (h : ∀ e ∈ o.toList, e.Agrees c registry registry' limit limit' depth) :
    c.Agree (lowerOption registry limit depth o) (lowerOption registry' limit' depth o) := by
  cases o with
  | none =>
      rw [lowerOption, lowerOption]
      exact .pure none
  | some e =>
      rw [lowerOption, lowerOption]
      exact (h e (by simp)).lower.bind fun n _ => .pure (some n)

private theorem lowerJoins_agrees {joins : List JoinClause}
    (h : ∀ e ∈ joins.flatMap fun j => [j.sequence, j.outerKey, j.innerKey],
      e.Agrees c registry registry' limit limit' depth) :
    c.Agree (lowerJoins registry limit depth joins) (lowerJoins registry' limit' depth joins) := by
  induction joins with
  | nil =>
      rw [lowerJoins, lowerJoins]
      exact .pure []
  | cons j rest ih =>
      obtain ⟨item, itemType, sequence, outerKey, innerKey⟩ := j
      rw [lowerJoins, lowerJoins]
      rw [List.flatMap_cons, List.forall_mem_append] at h
      obtain ⟨hkeys, hrest⟩ := h
      refine (hkeys sequence (by simp)).lower.bind fun source _ =>
        (hkeys outerKey (by simp)).lower.bind fun outer _ =>
          (hkeys innerKey (by simp)).lower.bind fun inner _ => ?_
      exact (ih hrest).bind fun joins _ => .pure _

private theorem lowerOrderings_agrees {orderings : List OrderClause}
    (h : ∀ e ∈ orderings.map OrderClause.key,
      e.Agrees c registry registry' limit limit' depth) :
    c.Agree (lowerOrderings registry limit depth orderings)
      (lowerOrderings registry' limit' depth orderings) := by
  induction orderings with
  | nil =>
      rw [lowerOrderings, lowerOrderings]
      exact .pure []
  | cons o rest ih =>
      obtain ⟨key, direction⟩ := o
      rw [lowerOrderings, lowerOrderings]
      rw [List.map_cons, List.forall_mem_cons] at h
      exact h.1.lower.bind fun n _ => (ih h.2).bind fun keys _ => .pure _

private theorem lowerOperator_agrees {operator : ResultOperator}
    (h : ∀ e, operator.operand? = some e → e.Agrees c registry registry' limit limit' depth)
    (tail : Tail) :
    c.Agree (lowerOperator registry limit depth tail operator)
      (lowerOperator registry' limit' depth tail operator) := by
  cases operator with
  | all e | take e | contains e =>
      rw [lowerOperator, lowerOperator]
      exact (h e rfl).lower.bind fun n _ => .pure _
  | skip e =>
      rw [lowerOperator, lowerOperator]
      by_cases htake : tail.take.isSome = true
      · rw [if_pos htake, if_pos htake]
        exact .throw _
      · rw [if_neg htake, if_neg htake]
        exact (h e rfl).lower.bind fun n _ => .pure _
  | _ =>
      rw [lowerOperator, lowerOperator]
      exact .pure _

private theorem lowerOperators_agrees {operators : List ResultOperator}
    (h : ∀ e ∈ operators.filterMap ResultOperator.operand?,
      e.Agrees c registry registry' limit limit' depth) (tail : Tail) :
    c.Agree (lowerOperators registry limit depth tail operators)
      (lowerOperators registry' limit' depth tail operators) := by
  induction operators generalizing tail with
  | nil =>
      rw [lowerOperators, lowerOperators]
      exact .pure tail
  | cons operator rest ih =>
      have hoperator := lowerOperator_agrees (fun e he =>
        h e (List.mem_filterMap.mpr ⟨operator, List.mem_cons_self, he⟩)) tail
      have hrest : ∀ e ∈ rest.filterMap ResultOperator.operand?,
          e.Agrees c registry registry' limit limit' depth := by
        intro e he
        obtain ⟨later, hlater, hoperand⟩ := List.mem_filterMap.mp he
        exact h e (List.mem_filterMap.mpr ⟨later, List.mem_cons_of_mem _ hlater, hoperand⟩)
      rw [lowerOperators, lowerOperators]
      by_cases hreduced : tail.aggregate.isSome = true
      · rw [if_pos hreduced, if_pos hreduced]
        exact .throw _
      · rw [if_neg hreduced, if_neg hreduced]
        exact hoperator.bind fun tail _ => ih hrest tail

/-! ## Models -/

namespace QueryModel

/-- A model whose expressions are lowered in agreement is. -/
theorem lower_agrees_of_expressions (hc : Lowering.Comparable c limit limit') {model : QueryModel}
    (h : ∀ e ∈ model.expressions, e.Agrees c registry registry' limit limit' depth) :
    c.Agree (model.lower registry limit depth) (model.lower registry' limit' depth) := by
  obtain ⟨item, itemType, source, joins, filter, having, orderings, selector, operators⟩ := model
  simp only [expressions, sourceExpressions, clauseExpressions, List.forall_mem_append] at h
  obtain ⟨⟨hsource, hjoins⟩, ⟨⟨⟨hselector, horderings⟩, hoperators⟩, hfilter⟩, hhaving⟩ := h
  have hlowered : c.Expects (.lowered depth
      ⟨item, itemType, source, joins, filter, having, orderings, selector, operators⟩) :=
    hc.expects_of_ne fun depth heq => by cases heq
  cases source with
  | none =>
      rw [lower, lower]
      exact .throw _
  | some e =>
      rw [lower, lower]
      refine (hsource e (by simp)).lower.bind fun sourceNode _ =>
        (lowerJoins_agrees hjoins).bind fun joinNodes _ =>
          (lowerOption_agrees hfilter).bind fun filterNode _ =>
            (lowerOption_agrees hhaving).bind fun havingNode _ => ?_
      refine (lowerOrderings_agrees horderings).bind fun order _ =>
        (lowerOption_agrees hselector).bind fun select _ =>
          (lowerOperators_agrees hoperators .empty).bind fun tail _ => ?_
      exact (Agree.emit hlowered).bind fun _ _ => .pure _

end QueryModel

/-- A subquery is entered in agreement where one more fits, and otherwise given up. -/
theorem Expr.subquery_lower_agrees (hc : Lowering.Comparable c limit limit') {model : QueryModel}
    (h : depth < limit → c.Agree (model.lower registry limit (depth + 1))
      (model.lower registry' limit' (depth + 1))) :
    c.Agree ((subquery model).lower registry limit depth)
      ((subquery model).lower registry' limit' depth) := by
  rw [lower, lower]
  by_cases hdeep : limit ≤ depth
  · obtain rfl | ⟨-, hgives⟩ := hc.refuses
    · rw [if_pos hdeep, if_pos hdeep]
      exact .throw _
    · rw [if_pos hdeep]
      exact .givesUp hgives _
  · have hdeep' : ¬limit' ≤ depth := by
      obtain hlimit | ⟨hlimit, -⟩ := hc.refuses <;> omega
    rw [if_neg hdeep, if_neg hdeep']
    have hentered : c.Expects (.entered (depth + 1)) := by
      refine hc.expects _ fun other heq => ?_
      obtain rfl := LoweringEvent.entered.inj heq
      omega
    exact (Agree.emit hentered).bind fun _ _ => (h (Nat.lt_of_not_le hdeep)).bind
      fun query _ => .pure _

/-- Expressions are lowered in agreement where both registries have the same handlers
for what is called in them. The induction goes into subqueries. -/
theorem Expr.agrees (hc : Lowering.Comparable c limit limit') {e : Expr} (depth : Nat)
    (hlookup : ∀ method, e.Calls method → registry'.lookup method = registry.lookup method) :
    e.Agrees c registry registry' limit limit' depth := by
  induction e using Expr.nestedInduction generalizing depth with
  | step e ih ihNested =>
      have hoperands : ∀ operand ∈ e.operands,
          operand.Agrees c registry registry' limit limit' depth := fun operand hoperand =>
        ih operand hoperand depth fun method hcalls => hlookup method (hcalls.operand hoperand)
      refine agrees_of_lower hc ?_ hoperands
      cases e with
      | constant value => cases value <;> exact .pure _
      | parameter name type | source name type =>
          rw [lower, lower]
          exact .pure _
      | unary operator operand type =>
          rw [lower, lower]
          exact (hoperands operand (by simp [operands])).lower.bind fun n _ => .pure _
      | binary operator left right =>
          rw [lower, lower]
          exact (hoperands left (by simp [operands])).lower.bind fun a _ =>
            (hoperands right (by simp [operands])).lower.bind fun b _ => .pure _
      | member target name type =>
          rw [lower, lower]
          exact (hoperands target (by simp [operands])).lower.bind fun n _ => .pure _
      | call method target arguments type =>
          rw [lower, lower, hlookup method (calls_call method target arguments type)]
          cases registry.lookup method with
          | none => exact .throw _
          | some handler =>
              refine overTarget_agrees (fun e he => hoperands e (by simp [operands, he])) _
                fun target target' htarget => ?_
              have hplace : target'.isSome = target.isSome := by cases htarget <;> rfl
              rw [hplace]
              exact overArguments_agrees (fun e he => hoperands e (by simp [operands, he])) _
                fun arguments arguments' harguments =>
                  hc.callHandler_agrees handler method htarget harguments
      | conditional test whenTrue whenFalse =>
          rw [lower, lower]
          refine (Agree.ofExcept _).bind fun _ _ =>
            (hoperands test (by simp [operands])).lower.bind fun n _ => ?_
          refine (lowerBranch_agrees (fun a ha => hoperands a (by simp [operands, ha]))
            .whenTrue).bind fun na _ => ?_
          exact (lowerBranch_agrees (fun b hb => hoperands b (by simp [operands, hb]))
            .whenFalse).bind fun nb _ => .pure _
      | coalesce left right =>
          rw [lower, lower]
          refine (Agree.ofExcept _).bind fun _ _ =>
            (lowerBranch_agrees (fun a ha => hoperands a (by simp [operands, ha]))
              .coalesceLeft).bind fun na _ => ?_
          exact (lowerBranch_agrees (fun b hb => hoperands b (by simp [operands, hb]))
            .coalesceRight).bind fun nb _ => .pure _
      | subquery model =>
          refine subquery_lower_agrees hc fun _ =>
            QueryModel.lower_agrees_of_expressions hc fun inner hinner => ?_
          exact ihNested model rfl inner hinner (depth + 1) fun method hcalls =>
            hlookup method (calls_subquery.mpr ⟨inner, hinner, hcalls⟩)

/-- Two lowerings of a model agree where both registries have the same handlers for
what the model calls. -/
theorem QueryModel.lower_agrees (hc : Lowering.Comparable c limit limit') {model : QueryModel}
    (depth : Nat)
    (hlookup : ∀ method, model.Calls method →
      registry'.lookup method = registry.lookup method) :
    c.Agree (model.lower registry limit depth) (model.lower registry' limit' depth) :=
  lower_agrees_of_expressions hc fun e he => Expr.agrees hc depth fun method hcalls =>
    hlookup method ⟨e, he, hcalls⟩

end ObjectQuery
