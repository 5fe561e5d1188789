import Mathlib.Algebra.BigOperators.Group.List.Basic
import Mathlib.Data.List.Perm.Basic
import Mathlib.Data.List.Sections
import ObjectQuery.Proofs.Lowering.Distribution

/-!
# The invocations of a distributed call

A call that may be distributed is lowered by entering it again: the leftmost
operand that is taken apart gives way to either of its branches, and what
becomes of the two calls is decided between. This recursion does not follow
the call, which is put together anew each time. It ends because both branches
are smaller than the operand they replace, whatever the other operands are.

So the handler is invoked at the leaves of a tree of such decisions. Each
leaf has one leaf of each operand, and each choice of them occurs once: what
is done with the operands one after the other, in as many branches as there
are, makes the product of the choices.

## Main definitions

* `Expr.divide` — a call distributed over one operand.
* `CallOperands.step` — one call, given what becomes of the calls it enters.
* `CallOperands.Distribution` — the decisions that a call makes, with the
  invocations they lead to.
* `Expr.settledLeaves` — the branches that may stand in the place of an
  operand.

## Main results

* `CallOperands.reenters_wellFounded` — calls are not entered forever.
* `CallOperands.lower_call_eq_step` — lowering a call is one such step.
* `CallOperands.Distribution.invocations_perm` — the handler is invoked once
  for each choice of leaves.
* `Expr.call_invocations` — all of this for calls that can be lowered.
-/

namespace ObjectQuery

open Hql (Node)

variable {registry : Registry} {limit depth : Nat}

/-! ## Sections -/

/-- What is chosen from two lists in one place is chosen from either of them. -/
theorem sections_append_perm {α : Type} (before after : List (List α)) (xs ys : List α) :
    (before ++ (xs ++ ys) :: after).sections.Perm
      ((before ++ xs :: after).sections ++ (before ++ ys :: after).sections) := by
  induction before with
  | nil =>
      simp only [List.nil_append, List.sections, List.map_append]
      exact (List.flatMap_append_perm _ _ _).symm
  | cons zs before ih =>
      simp only [List.cons_append, List.sections]
      rw [← List.flatMap_append]
      exact ih.flatMap_right _

private theorem sections_singletons {α : Type} (xs : List α) :
    (xs.map fun x => [x]).sections = [xs] := by
  induction xs with
  | nil => rfl
  | cons x xs ih => simp [List.sections, ih]

private theorem length_sections {α : Type} (choices : List (List α)) :
    choices.sections.length = (choices.map List.length).prod := by
  induction choices with
  | nil => rfl
  | cons xs choices ih =>
      simp only [List.sections, List.length_flatMap, List.length_map, List.map_const',
        List.sum_const_nat, List.map_cons, List.prod_cons, ih]
      exact Nat.mul_comm _ _

/-! ## The leaves of an operand -/

mutual

/-- The leaves of an operand: those of its branches if it is taken apart, and itself
otherwise. -/
def Expr.settledLeaves : Expr → List Expr
  | .conditional test whenTrue whenFalse =>
    if (Expr.conditional test whenTrue whenFalse).isExpandable then
      settledBranchLeaves whenTrue ++ settledBranchLeaves whenFalse
    else [.conditional test whenTrue whenFalse]
  | .coalesce left right =>
    if (Expr.coalesce left right).isExpandable then
      settledBranchLeaves left ++ settledBranchLeaves right
    else [.coalesce left right]
  | e => [e]

/-- The leaves of a branch that may be missing. -/
def settledBranchLeaves : Option Expr → List Expr
  | none => []
  | some e => e.settledLeaves

end

mutual

/-- The number of leaves of an operand: the sum over the branches if it is taken
apart, and 1 otherwise. -/
def Expr.settledLeafCount : Expr → Nat
  | .conditional test whenTrue whenFalse =>
    if (Expr.conditional test whenTrue whenFalse).isExpandable then
      settledBranchLeafCount whenTrue + settledBranchLeafCount whenFalse
    else 1
  | .coalesce left right =>
    if (Expr.coalesce left right).isExpandable then
      settledBranchLeafCount left + settledBranchLeafCount right
    else 1
  | _ => 1

/-- The same for a branch that may be missing. -/
def settledBranchLeafCount : Option Expr → Nat
  | none => 0
  | some e => e.settledLeafCount

end

private theorem Expr.length_settledLeaves (e : Expr) :
    e.settledLeaves.length = e.settledLeafCount := by
  have hbranch : ∀ {branch : Option Expr},
      (∀ e, branch = some e → e.settledLeaves.length = e.settledLeafCount) →
        (settledBranchLeaves branch).length = settledBranchLeafCount branch := by
    intro branch h
    cases branch with
    | none => rfl
    | some e => exact h e rfl
  induction e using Expr.operandInduction with
  | conditional test whenTrue whenFalse _ ihTrue ihFalse =>
      rw [settledLeaves, settledLeafCount]
      split
      · rw [List.length_append, hbranch ihTrue, hbranch ihFalse]
      · rfl
  | coalesce left right ihLeft ihRight =>
      rw [settledLeaves, settledLeafCount]
      split
      · rw [List.length_append, hbranch ihLeft, hbranch ihRight]
      · rfl
  | _ => rfl

private theorem Expr.settledLeaves_of_not_isExpandable {e : Expr} (h : e.isExpandable = false) :
    e.settledLeaves = [e] := by
  cases e with
  | conditional test whenTrue whenFalse =>
      rw [settledLeaves, h, if_neg Bool.false_ne_true]
  | coalesce left right => rw [settledLeaves, h, if_neg Bool.false_ne_true]
  | _ => rfl

/-! ## Decisions -/

/-- The branch that is looked at first. It is present if the branches fit. -/
def Expr.firstBranch : Expr → Expr
  | .conditional _ whenTrue _ => whenTrue.getD default
  | .coalesce left _ => left.getD default
  | e => e

/-- The other branch. -/
def Expr.secondBranch : Expr → Expr
  | .conditional _ _ whenFalse => whenFalse.getD default
  | .coalesce _ right => right.getD default
  | e => e

/-- The node of what a conditional or coalesce decides by. -/
def Expr.lowerTest (registry : Registry) (limit depth : Nat) : Expr → Lowering Node
  | .conditional test _ _ => test.lower registry limit depth
  | .coalesce left _ => do
    return .isNotNull (← lowerBranch registry limit depth .coalesceLeft left)
  | e => e.lower registry limit depth

/-- A call distributed over an operand: it is decided between the calls with either of its
branches. -/
def Expr.divide (registry : Registry) (limit depth position : Nat) (method : MethodSignature)
    (decision : Expr) (first second : Lowering Node) : Lowering Node := do
  .require decision.checkBranches
  let test ← decision.lowerTest registry limit depth
  .emit (.distributed position method)
  let whenFirst ← first
  let whenSecond ← second
  return .ifThenElse test whenFirst whenSecond

/-- If there is a node, then the branches fit and both calls have made one. -/
theorem Expr.of_divide_eq_ok {position : Nat} {method : MethodSignature} {decision : Expr}
    {first second : Lowering Node} {n : Node}
    (h : (decision.divide registry limit depth position method first second).outcome = .ok n) :
    decision.checkBranches = .ok () ∧ (∃ a, first.outcome = .ok a) ∧
      ∃ b, second.outcome = .ok b := by
  simp only [divide, Traced.outcome_bind_eq_ok, Expr.require_outcome_eq_ok] at h
  obtain ⟨_, hfit, _, -, _, -, a, hfirst, b, hsecond, -⟩ := h
  exact ⟨hfit, ⟨a, hfirst⟩, b, hsecond⟩

/-- What is taken apart is a conditional or a coalesce, and if its branches fit, then
they are present. -/
theorem Expr.exists_branches {e : Expr} (h : e.isExpandable = true)
    (hfit : e.checkBranches = .ok ()) :
    (∃ test a b, e = .conditional test (some a) (some b)) ∨
      ∃ a b, e = .coalesce (some a) (some b) := by
  cases e with
  | conditional test whenTrue whenFalse =>
      obtain ⟨a, b, rfl, rfl, -⟩ := checkBranches_eq_ok_iff.mp hfit
      exact .inl ⟨test, a, b, rfl⟩
  | coalesce left right =>
      obtain ⟨a, b, rfl, rfl, -⟩ := checkBranches_eq_ok_iff.mp hfit
      exact .inr ⟨a, b, rfl⟩
  | _ => cases h

private theorem Expr.settledLeaves_of_isExpandable {e : Expr} (h : e.isExpandable = true)
    (hfit : e.checkBranches = .ok ()) :
    e.settledLeaves = e.firstBranch.settledLeaves ++ e.secondBranch.settledLeaves := by
  obtain ⟨test, a, b, rfl⟩ | ⟨a, b, rfl⟩ := exists_branches h hfit
  · rw [settledLeaves, if_pos h]
    rfl
  · rw [settledLeaves, if_pos h]
    rfl

private theorem Expr.sizeOf_branches_lt {e : Expr} (h : e.isExpandable = true)
    (hfit : e.checkBranches = .ok ()) :
    sizeOf e.firstBranch < sizeOf e ∧ sizeOf e.secondBranch < sizeOf e := by
  obtain ⟨test, a, b, rfl⟩ | ⟨a, b, rfl⟩ := exists_branches h hfit
  · simp only [firstBranch, secondBranch, Option.getD_some, conditional.sizeOf_spec,
      Option.some.sizeOf_spec]
    omega
  · simp only [firstBranch, secondBranch, Option.getD_some, coalesce.sizeOf_spec,
      Option.some.sizeOf_spec]
    omega

/-- A call is distributed over an operand that is taken apart. -/
theorem Expr.over_of_isExpandable {place : OperandPlace} {e : Expr}
    (hexpansion : place.expansion = .bareBranching) (h : e.isExpandable = true)
    (proceed : Operand → Lowering Node) :
    e.over registry limit depth place proceed =
      e.divide registry limit depth place.position place.method
        (e.firstBranch.over registry limit depth place proceed)
        (e.secondBranch.over registry limit depth place proceed) := by
  have hside : ∀ (side : BranchSide) (e : Expr),
      overBranch registry limit depth place side (some e) proceed =
        e.over registry limit depth place proceed := by
    intro side e
    rw [Expr.over, hexpansion, overBranch, overBranch]
  rw [← hside .whenTrue e]
  cases e with
  | conditional test whenTrue whenFalse =>
      rw [overBranch_conditional h]
      cases whenTrue with
      | none => rfl
      | some a =>
          cases whenFalse with
          | none => rfl
          | some b =>
              rw [hside, hside]
              rfl
  | coalesce left right =>
      rw [overBranch_coalesce h]
      cases left with
      | none => rfl
      | some a =>
          cases right with
          | none => rfl
          | some b =>
              rw [hside, hside]
              simp only [divide, lowerTest, bind_assoc, pure_bind]
              rfl
  | _ => cases h

/-! ## The operands of a call -/

/-- The operands of a call. -/
structure CallOperands where
  target : Option Expr
  arguments : List Expr

/-- The leftmost expression that is taken apart, with its position. -/
def leftmostExpandable? : List Expr → Option (Nat × Expr)
  | [] => none
  | e :: rest =>
    if e.isExpandable then some (0, e)
    else (leftmostExpandable? rest).map fun (position, decision) => (position + 1, decision)

private theorem leftmostExpandable?_eq_none_iff {es : List Expr} :
    leftmostExpandable? es = none ↔ ∀ e ∈ es, e.isExpandable = false := by
  induction es with
  | nil => simp [leftmostExpandable?]
  | cons e es ih =>
      rw [leftmostExpandable?]
      cases h : e.isExpandable <;> simp [h, ih]

private theorem exists_split_of_leftmostExpandable? {es : List Expr} {position : Nat}
    {decision : Expr}
    (h : leftmostExpandable? es = some (position, decision)) :
    ∃ before after, es = before ++ decision :: after ∧ before.length = position ∧
      (∀ e ∈ before, e.isExpandable = false) ∧ decision.isExpandable = true := by
  induction es generalizing position with
  | nil => cases h
  | cons e es ih =>
      rw [leftmostExpandable?] at h
      cases hexpandable : e.isExpandable with
      | true =>
          rw [hexpandable, if_pos rfl] at h
          obtain ⟨rfl, rfl⟩ := Prod.mk.inj (Option.some.inj h)
          exact ⟨[], es, rfl, rfl, by simp, hexpandable⟩
      | false =>
          rw [hexpandable, if_neg Bool.false_ne_true, Option.map_eq_some_iff] at h
          obtain ⟨⟨position, _⟩, hrest, heq⟩ := h
          obtain ⟨rfl, rfl⟩ := Prod.mk.inj heq
          obtain ⟨before, after, rfl, rfl, hbefore, hdecision⟩ := ih hrest
          exact ⟨e :: before, after, rfl, rfl,
            List.forall_mem_cons.mpr ⟨hexpandable, hbefore⟩, hdecision⟩

namespace CallOperands

/-- All operands in their order. -/
def toList (operands : CallOperands) : List Expr :=
  operands.target.toList ++ operands.arguments

/-- The operands with another one at a position. The target is at the first position,
if there is one. -/
def set (operands : CallOperands) (position : Nat) (e : Expr) : CallOperands :=
  match operands.target, position with
  | some _, 0 => { operands with target := some e }
  | some _, position + 1 => { operands with arguments := operands.arguments.set position e }
  | none, position => { operands with arguments := operands.arguments.set position e }

/-- The call of a method with the operands. -/
def call (operands : CallOperands) (method : MethodSignature) (type : StaticType) : Expr :=
  .call method operands.target operands.arguments type

/-- None of the operands is taken apart. -/
def Settled (operands : CallOperands) : Prop :=
  ∀ e ∈ operands.toList, e.isExpandable = false

/-- The size of all operands together. -/
noncomputable def size (operands : CallOperands) : Nat :=
  (operands.toList.map sizeOf).sum

/-- The operand that is taken apart next, with its position. -/
def decision? (operands : CallOperands) : Option (Nat × Expr) :=
  leftmostExpandable? operands.toList

private theorem toList_set (operands : CallOperands) (position : Nat) (e : Expr) :
    (operands.set position e).toList = operands.toList.set position e := by
  obtain ⟨target, arguments⟩ := operands
  cases target with
  | none => rfl
  | some _ => cases position <;> rfl

private theorem isSome_target_set (operands : CallOperands) (position : Nat) (e : Expr) :
    (operands.set position e).target.isSome = operands.target.isSome := by
  obtain ⟨target, arguments⟩ := operands
  cases target with
  | none => rfl
  | some _ => cases position <;> rfl

/-- Where an operand is taken apart, another one in its place leaves those around it. -/
theorem exists_toList_set {operands : CallOperands} {position : Nat} {decision : Expr}
    (h : operands.decision? = some (position, decision)) :
    ∃ before after, operands.toList = before ++ decision :: after ∧ before.length = position ∧
      (∀ e ∈ before, e.isExpandable = false) ∧ decision.isExpandable = true ∧
      ∀ e, (operands.set position e).toList = before ++ e :: after := by
  obtain ⟨before, after, hsplit, rfl, hbefore, hdecision⟩ :=
    exists_split_of_leftmostExpandable? h
  refine ⟨before, after, hsplit, rfl, hbefore, hdecision, fun e => ?_⟩
  rw [toList_set, hsplit]
  simp

/-! ## One call after another -/

section

variable (registry : Registry) (limit depth : Nat) (handler : Handler) (method : MethodSignature)

/-- The handler is invoked with the operands. -/
def invoke (operands : CallOperands) : Lowering Node :=
  callHandler handler method (operands.target.map (Expr.asOperand registry limit depth))
    (operands.arguments.map (Expr.asOperand registry limit depth))

/-- What becomes of a call, given what becomes of the calls that it enters: the handler
is invoked if no operand is taken apart, and otherwise both branches of the leftmost one
that is take its place. -/
def step (enter : CallOperands → Lowering Node) (operands : CallOperands) : Lowering Node :=
  match operands.decision? with
  | none => operands.invoke registry limit depth handler method
  | some (position, decision) =>
    decision.divide registry limit depth position method
      (enter (operands.set position decision.firstBranch))
      (enter (operands.set position decision.secondBranch))

end

/-- The call with the operands `before` enters the one with the operands `after`. -/
def Reenters (after before : CallOperands) : Prop :=
  ∃ position decision, before.decision? = some (position, decision) ∧
    decision.checkBranches = .ok () ∧
    (after = before.set position decision.firstBranch ∨
      after = before.set position decision.secondBranch)

/-- Calls are not entered forever: what takes the place of an operand is smaller, and
nothing else changes. -/
theorem reenters_wellFounded : WellFounded Reenters := by
  refine Subrelation.wf (r := InvImage (· < ·) size) ?_ (measure size).wf
  intro after before h
  obtain ⟨position, decision, hdecision, hfit, hafter⟩ := h
  obtain ⟨settled, rest, hsplit, -, -, hexpandable, hset⟩ := exists_toList_set hdecision
  obtain ⟨hfirst, hsecond⟩ := Expr.sizeOf_branches_lt hexpandable hfit
  show after.size < before.size
  unfold size
  rcases hafter with rfl | rfl
  · rw [hset, hsplit]
    simp only [List.map_append, List.map_cons, List.sum_append, List.sum_cons]
    omega
  · rw [hset, hsplit]
    simp only [List.map_append, List.map_cons, List.sum_append, List.sum_cons]
    omega

/-- What becomes of a call depends on the calls it enters only. -/
theorem step_congr {handler : Handler} {method : MethodSignature} {operands : CallOperands}
    {enter enter' : CallOperands → Lowering Node}
    (h : ∀ after, after.Reenters operands → enter after = enter' after) :
    operands.step registry limit depth handler method enter =
      operands.step registry limit depth handler method enter' := by
  unfold step
  cases hdecision : operands.decision? with
  | none => rfl
  | some found =>
      obtain ⟨position, decision⟩ := found
      cases hfit : decision.checkBranches with
      | error e =>
          simp only [Expr.divide, hfit]
          rfl
      | ok _ =>
          simp only
          rw [h _ ⟨position, decision, hdecision, hfit, .inl rfl⟩,
            h _ ⟨position, decision, hdecision, hfit, .inr rfl⟩]

end CallOperands

/-! ## A call is such a step -/

/-- Operands that are not taken apart are handed on as they are. -/
theorem overArguments_append_of_settled {place : OperandPlace} {before rest : List Expr}
    (h : ∀ e ∈ before, e.isExpandable = false) (proceed : List Operand → Lowering Node) :
    overArguments registry limit depth place (before ++ rest) proceed =
      overArguments registry limit depth
        { place with position := place.position + before.length } rest fun operands =>
          proceed (before.map (Expr.asOperand registry limit depth) ++ operands) := by
  induction before generalizing place proceed with
  | nil => rfl
  | cons e before ih =>
      obtain ⟨he, hbefore⟩ := List.forall_mem_cons.mp h
      rw [List.cons_append, overArguments_cons, Expr.over_of_not_isExpandable he, ih hbefore]
      have hplace : place.next.position + before.length =
          place.position + (e :: before).length := by
        simp only [OperandPlace.next, List.length_cons]
        omega
      rw [hplace]
      rfl

/-- The handler is given the first operand as the target if there is one. -/
def handTo (handler : Handler) (method : MethodSignature) :
    Bool → List Operand → Lowering Node
  | true, operand :: operands => callHandler handler method (some operand) operands
  | _, operands => callHandler handler method none operands

namespace CallOperands

variable {handler : Handler} {method : MethodSignature}

/-- A target is handed on like an argument before the others. -/
theorem lower_call (hlookup : registry.lookup method = some handler) (type : StaticType)
    (operands : CallOperands) :
    (operands.call method type).lower registry limit depth =
      overArguments registry limit depth ⟨method, handler.expansion, 0⟩ operands.toList
        (handTo handler method operands.target.isSome) := by
  obtain ⟨target, arguments⟩ := operands
  unfold call
  rw [lower_call_eq hlookup]
  cases target with
  | none => rfl
  | some e =>
      rw [overTarget_some]
      show _ = overArguments registry limit depth _ (e :: arguments) _
      rw [overArguments_cons]
      rfl

private theorem handTo_eq_invoke (operands : CallOperands) :
    handTo handler method operands.target.isSome
        (operands.toList.map (Expr.asOperand registry limit depth)) =
      operands.invoke registry limit depth handler method := by
  obtain ⟨target, arguments⟩ := operands
  cases target <;> rfl

/-- Lowering a call whose handler lets it be distributed is one step after another. -/
theorem lower_call_eq_step (hlookup : registry.lookup method = some handler)
    (hexpansion : handler.expansion = .bareBranching) (type : StaticType)
    (operands : CallOperands) :
    (operands.call method type).lower registry limit depth =
      operands.step registry limit depth handler method fun after =>
        (after.call method type).lower registry limit depth := by
  unfold step
  cases hdecision : operands.decision? with
  | none =>
      have hsettled := leftmostExpandable?_eq_none_iff.mp hdecision
      rw [lower_call hlookup, ← List.append_nil operands.toList,
        overArguments_append_of_settled hsettled, overArguments, List.append_nil]
      exact handTo_eq_invoke operands
  | some found =>
      obtain ⟨position, decision⟩ := found
      obtain ⟨before, after, hsplit, rfl, hbefore, hexpandable, hset⟩ :=
        exists_toList_set hdecision
      simp only [lower_call hlookup, hsplit, hset, isSome_target_set,
        overArguments_append_of_settled hbefore, overArguments_cons]
      rw [Expr.over_of_isExpandable hexpansion hexpandable]
      simp only [Nat.zero_add]

/-- There is no other way to lower all calls one step after another. -/
theorem eq_lower_call (hlookup : registry.lookup method = some handler)
    (hexpansion : handler.expansion = .bareBranching) (type : StaticType)
    {enter : CallOperands → Lowering Node}
    (h : ∀ operands, enter operands =
      operands.step registry limit depth handler method enter) (operands : CallOperands) :
    enter operands = (operands.call method type).lower registry limit depth := by
  induction operands using reenters_wellFounded.induction with
  | _ operands ih =>
      rw [h, lower_call_eq_step hlookup hexpansion]
      exact step_congr ih

/-! ## The decisions of a call -/

/-- The decisions that a call makes until no operand is taken apart. -/
inductive Distribution : CallOperands → Type
  /-- The handler is invoked. -/
  | invoked {operands : CallOperands} (settled : operands.decision? = none) :
    Distribution operands
  /-- It is decided between the branches of an operand. -/
  | divided {operands : CallOperands} {position : Nat} {decision : Expr}
    (found : operands.decision? = some (position, decision))
    (fits : decision.checkBranches = .ok ())
    (first : Distribution (operands.set position decision.firstBranch))
    (second : Distribution (operands.set position decision.secondBranch)) :
    Distribution operands

namespace Distribution

/-- The node that the decisions lead to. -/
def lower (registry : Registry) (limit depth : Nat) (handler : Handler)
    (method : MethodSignature) {operands : CallOperands} :
    Distribution operands → Lowering Node
  | .invoked _ => operands.invoke registry limit depth handler method
  | @divided _ position decision _ _ first second =>
    decision.divide registry limit depth position method
      (first.lower registry limit depth handler method)
      (second.lower registry limit depth handler method)

/-- The operands with which the handler is invoked, one invocation after the other. -/
def invocations {operands : CallOperands} : Distribution operands → List CallOperands
  | .invoked _ => [operands]
  | .divided _ _ first second => first.invocations ++ second.invocations

variable {operands : CallOperands}

/-- The call makes these decisions. -/
theorem lower_call_eq (hlookup : registry.lookup method = some handler)
    (hexpansion : handler.expansion = .bareBranching) (type : StaticType)
    (distribution : Distribution operands) :
    (operands.call method type).lower registry limit depth =
      distribution.lower registry limit depth handler method := by
  induction distribution with
  | invoked hsettled =>
      rw [lower_call_eq_step hlookup hexpansion, step, hsettled]
      rfl
  | divided hfound _ _ _ ihFirst ihSecond =>
      rw [lower_call_eq_step hlookup hexpansion, step, hfound]
      rw [lower, ← ihFirst, ← ihSecond]

/-- A call that can be lowered makes decisions that lead to an end. -/
theorem exists_of_lowersTo (hlookup : registry.lookup method = some handler)
    (hexpansion : handler.expansion = .bareBranching) (type : StaticType) {n : Node}
    (h : (operands.call method type).LowersTo registry limit depth n) :
    Nonempty (Distribution operands) := by
  induction operands using reenters_wellFounded.induction generalizing n with
  | _ operands ih =>
      unfold Expr.LowersTo at h
      rw [lower_call_eq_step hlookup hexpansion, step] at h
      cases hdecision : operands.decision? with
      | none => exact ⟨.invoked hdecision⟩
      | some found =>
          obtain ⟨position, decision⟩ := found
          rw [hdecision] at h
          obtain ⟨hfit, ⟨_, hfirst⟩, _, hsecond⟩ := Expr.of_divide_eq_ok h
          obtain ⟨first⟩ := ih _ ⟨position, decision, hdecision, hfit, .inl rfl⟩ hfirst
          obtain ⟨second⟩ := ih _ ⟨position, decision, hdecision, hfit, .inr rfl⟩ hsecond
          exact ⟨.divided hdecision hfit first second⟩

/-- No operand is taken apart where the handler is invoked, and there is a target where
the call has one. -/
theorem settled_of_mem_invocations (distribution : Distribution operands)
    {invoked : CallOperands} (h : invoked ∈ distribution.invocations) :
    invoked.Settled ∧ invoked.target.isSome = operands.target.isSome := by
  induction distribution with
  | invoked hsettled =>
      obtain rfl := List.mem_singleton.mp h
      exact ⟨leftmostExpandable?_eq_none_iff.mp hsettled, rfl⟩
  | divided _ _ _ _ ihFirst ihSecond =>
      simp only [isSome_target_set] at ihFirst ihSecond
      rcases List.mem_append.mp h with h | h
      · exact ihFirst h
      · exact ihSecond h

/-- If the decisions lead to a node, then every invocation has made one. -/
theorem invoke_of_mem_invocations (distribution : Distribution operands) {n : Node}
    (hn : (distribution.lower registry limit depth handler method).outcome = .ok n)
    {invoked : CallOperands} (h : invoked ∈ distribution.invocations) :
    ∃ m, (invoked.invoke registry limit depth handler method).outcome = .ok m := by
  induction distribution generalizing n with
  | invoked _ =>
      obtain rfl := List.mem_singleton.mp h
      exact ⟨n, hn⟩
  | divided _ _ _ _ ihFirst ihSecond =>
      obtain ⟨-, ⟨_, hfirst⟩, _, hsecond⟩ := Expr.of_divide_eq_ok hn
      rcases List.mem_append.mp h with h | h
      · exact ihFirst hfirst h
      · exact ihSecond hsecond h

/-- The handler is invoked once for each choice of one leaf of each operand. -/
theorem invocations_perm (distribution : Distribution operands) :
    (distribution.invocations.map toList).Perm
      (operands.toList.map Expr.settledLeaves).sections := by
  induction distribution with
  | @invoked operands hsettled =>
      have hleaves : operands.toList.map Expr.settledLeaves = operands.toList.map fun e => [e] :=
        List.map_congr_left fun e he =>
          Expr.settledLeaves_of_not_isExpandable (leftmostExpandable?_eq_none_iff.mp hsettled e he)
      rw [hleaves, sections_singletons]
      exact .refl _
  | divided hfound hfit _ _ ihFirst ihSecond =>
      obtain ⟨before, after, hsplit, -, -, hexpandable, hset⟩ := exists_toList_set hfound
      rw [hset] at ihFirst ihSecond
      simp only [List.map_append, List.map_cons] at ihFirst ihSecond
      rw [invocations, hsplit, List.map_append, List.map_append, List.map_cons,
        Expr.settledLeaves_of_isExpandable hexpandable hfit]
      exact (ihFirst.append ihSecond).trans (sections_append_perm _ _ _ _).symm

private theorem length_invocations (distribution : Distribution operands) :
    distribution.invocations.length = (operands.toList.map Expr.settledLeafCount).prod := by
  rw [← List.length_map toList, distribution.invocations_perm.length_eq, length_sections,
    List.map_map]
  congr 1
  exact List.map_congr_left fun e _ => e.length_settledLeaves

end Distribution

end CallOperands

/-- Lowering a call whose handler lets it be distributed comes to an end: it enters other
calls, but not forever, and lowering is the only function that does so. If the call can be
lowered, the handler is invoked on operands that are not taken apart, succeeds on all of
them, and is invoked once for each choice of one leaf of each operand. So the number of
invocations is the product of the numbers of leaves. -/
theorem Expr.call_invocations {registry : Registry} {method : MethodSignature}
    {handler : Handler} (hlookup : registry.lookup method = some handler)
    (hexpansion : handler.expansion = .bareBranching) (type : StaticType) (limit depth : Nat) :
    WellFounded CallOperands.Reenters ∧
    (∀ lowerCall : CallOperands → Lowering Node,
      (∀ operands, lowerCall operands =
        operands.step registry limit depth handler method lowerCall) ↔
      ∀ operands, lowerCall operands =
        (operands.call method type).lower registry limit depth) ∧
    ∀ (operands : CallOperands) (n : Node),
      (operands.call method type).LowersTo registry limit depth n →
      ∃ distribution : operands.Distribution,
        (operands.call method type).lower registry limit depth =
          distribution.lower registry limit depth handler method ∧
        (∀ invoked ∈ distribution.invocations, invoked.Settled ∧
          invoked.target.isSome = operands.target.isSome ∧
          ∃ m, (invoked.invoke registry limit depth handler method).outcome = .ok m) ∧
        (distribution.invocations.map CallOperands.toList).Perm
          (operands.toList.map Expr.settledLeaves).sections ∧
        distribution.invocations.length =
          (operands.toList.map Expr.settledLeafCount).prod := by
  refine ⟨CallOperands.reenters_wellFounded, fun lowerCall => ⟨?_, ?_⟩, ?_⟩
  · intro h
    exact CallOperands.eq_lower_call hlookup hexpansion type h
  · intro h operands
    rw [h, CallOperands.lower_call_eq_step hlookup hexpansion]
    exact CallOperands.step_congr fun after _ => (h after).symm
  · intro operands n hn
    obtain ⟨distribution⟩ :=
      CallOperands.Distribution.exists_of_lowersTo hlookup hexpansion type hn
    have heq : (operands.call method type).lower registry limit depth =
        distribution.lower registry limit depth handler method :=
      distribution.lower_call_eq hlookup hexpansion type
    refine ⟨distribution, heq, ?_, distribution.invocations_perm,
      distribution.length_invocations⟩
    intro invoked hinvoked
    obtain ⟨hsettled, htarget⟩ := distribution.settled_of_mem_invocations hinvoked
    have hlower : (distribution.lower registry limit depth handler method).outcome = .ok n := by
      rw [← heq]
      exact hn
    exact ⟨hsettled, htarget, distribution.invoke_of_mem_invocations hlower hinvoked⟩

/-- A customer that an order refers to. -/
def orderCustomer (name : String) : Expr :=
  orderProperty name (.entity "Customer")

/-- The customer of an order that is paid, and its agent or, if it has none, the customer
or the referrer of the order. -/
def payingCustomerAndContact : CallOperands where
  target := none
  arguments := [customerIfPaid,
    .coalesce (some (orderCustomer "Agent"))
      (some (.conditional (orderProperty "Urgent" .boolean) (some (orderCustomer "Customer"))
        (some (orderCustomer "Referrer"))))]

/-- Two leaves of the one operand and three of the other, one of them nested, make six
invocations. -/
theorem payingCustomerAndContact_invocations :
    ∃ distribution : payingCustomerAndContact.Distribution,
      distribution.invocations.length = 6 ∧
      (distribution.invocations.map CallOperands.toList).Perm
        [[orderCustomer "Customer", orderCustomer "Agent"],
          [.constant .null, orderCustomer "Agent"],
          [orderCustomer "Customer", orderCustomer "Customer"],
          [.constant .null, orderCustomer "Customer"],
          [orderCustomer "Customer", orderCustomer "Referrer"],
          [.constant .null, orderCustomer "Referrer"]] := by
  have hlookup : Registry.withDefaults.lookup staticEquals = some _ := rfl
  obtain ⟨-, -, h⟩ := Expr.call_invocations hlookup rfl .boolean 8 0
  obtain ⟨distribution, -, -, hperm, hlength⟩ := h payingCustomerAndContact _ rfl
  exact ⟨distribution, hlength, hperm⟩

end ObjectQuery
