import ObjectQuery.Proofs.Lowering.Expr
import ObjectQuery.Proofs.Method.Meaning

/-!
# Calls and their distribution

A call is lowered by handing on what remains to be done with its operands.
An operand that is taken apart hands on its branches, one after the other,
and decides between the nodes that come back. Where what is handed on to
makes a node of the right value for every branch, the decision has the right
value too: that of the branch which the operand selects.

So the value of a call is always the meaning of its handler on what its
operands select, whether or not the call is distributed, and whether or not
an operand is taken apart changes nothing but what is seen of it. The operands
are lowered in some order, but values have no order.

## Main definitions

* `Expr.selected?` — what is seen of the operand that a distribution selects.
* `Lowering.Yields` — a step of lowering makes a node with a given value.

## Main results

* `lowers_of_call` — what a call needs to be lowered.
* `call_yields` — the value of a call.
* `Expr.call_meets` — what is known of the operands of a call carries over to its
  node.
-/

namespace ObjectQuery

open Hql (Node)

variable {registry : Registry} {limit depth : Nat}

/-! ## What operands select -/

section

variable (registry : Registry) (limit depth : Nat) (env : Environment) (scope : Scope)

/-- The value of an expression, if it can be lowered and has one. -/
def Expr.value? (e : Expr) : Option Value :=
  (e.lower registry limit depth).outcome.toOption >>= fun n => (n.eval env scope).toOption

/-- What is seen of an expression, if it can be lowered and has a value. -/
def Expr.seen? (e : Expr) : Option Seen :=
  (e.lower registry limit depth).outcome.toOption >>= fun n => n.seen? env scope

mutual

/-- What is seen of the branch that an operand selects, if the operand is one
to be taken apart, and otherwise of the operand itself. -/
def Expr.selected? : Expr → Option Seen
  | .conditional test whenTrue whenFalse =>
    if (Expr.conditional test whenTrue whenFalse).isExpandable then do
      if (← test.value? registry limit depth env scope).isTrue then branchSelected? whenTrue
      else branchSelected? whenFalse
    else (Expr.conditional test whenTrue whenFalse).seen? registry limit depth env scope
  | .coalesce left right =>
    if (Expr.coalesce left right).isExpandable then do
      if (← (left.getD default).value? registry limit depth env scope).isNull then
        branchSelected? right
      else branchSelected? left
    else (Expr.coalesce left right).seen? registry limit depth env scope
  | e => e.seen? registry limit depth env scope

/-- The same for a branch that may be missing. -/
def branchSelected? : Option Expr → Option Seen
  | none => none
  | some e => e.selected?

end

/-- What is seen of an operand in a call that may be distributed or not. -/
def Expr.operand? (expansion : ArgumentExpansion) (e : Expr) : Option Seen :=
  match expansion with
  | .bareBranching => e.selected? registry limit depth env scope
  | .never => e.seen? registry limit depth env scope

end

theorem Expr.LowersTo.value?_eq {e : Expr} {n : Node} (h : e.LowersTo registry limit depth n)
    (env : Environment) (scope : Scope) :
    e.value? registry limit depth env scope = (n.eval env scope).toOption := by
  unfold Expr.value?
  rw [show (e.lower registry limit depth).outcome = .ok n from h]
  rfl

theorem Expr.LowersTo.seen?_eq {e : Expr} {n : Node} (h : e.LowersTo registry limit depth n)
    (env : Environment) (scope : Scope) :
    e.seen? registry limit depth env scope = n.seen? env scope := by
  unfold Expr.seen?
  rw [show (e.lower registry limit depth).outcome = .ok n from h]
  rfl

theorem Expr.selected?_of_not_isExpandable {e : Expr} (h : e.isExpandable = false)
    (env : Environment) (scope : Scope) :
    e.selected? registry limit depth env scope = e.seen? registry limit depth env scope := by
  cases e with
  | conditional test whenTrue whenFalse =>
      rw [selected?, h, if_neg Bool.false_ne_true]
  | coalesce left right => rw [selected?, h, if_neg Bool.false_ne_true]
  | _ => rfl

theorem Expr.selected?_conditional {test a b : Expr}
    (h : (conditional test (some a) (some b)).isExpandable = true) (env : Environment)
    (scope : Scope) :
    (conditional test (some a) (some b)).selected? registry limit depth env scope =
      test.value? registry limit depth env scope >>= fun v =>
        if v.isTrue then a.selected? registry limit depth env scope
        else b.selected? registry limit depth env scope := by
  rw [selected?, if_pos h, branchSelected?, branchSelected?]

theorem Expr.selected?_coalesce {a b : Expr}
    (h : (coalesce (some a) (some b)).isExpandable = true) (env : Environment)
    (scope : Scope) :
    (coalesce (some a) (some b)).selected? registry limit depth env scope =
      a.value? registry limit depth env scope >>= fun v =>
        if v.isNull then b.selected? registry limit depth env scope
        else a.selected? registry limit depth env scope := by
  rw [selected?, if_pos h, branchSelected?, branchSelected?, Option.getD_some]

/-! ## Steps that make a node -/

/-- The step makes a node, which is no constant and has the given value. -/
def Lowering.Yields (x : Lowering Node) (value : Environment → Scope → Option Value) : Prop :=
  ∃ n, x.outcome = .ok n ∧ n.constant? = none ∧
    ∀ env scope, (n.eval env scope).toOption = value env scope

theorem Lowering.Yields.congr {x : Lowering Node} {v v' : Environment → Scope → Option Value}
    (h : x.Yields v) (hv : ∀ env scope, v env scope = v' env scope) : x.Yields v' := by
  obtain ⟨n, hn, hconstant, hvalue⟩ := h
  exact ⟨n, hn, hconstant, fun env scope => (hvalue env scope).trans (hv env scope)⟩

/-- An expression as an operand. -/
def Expr.asOperand (registry : Registry) (limit depth : Nat) (e : Expr) : Operand :=
  ⟨e, e.lower registry limit depth⟩

/-! ## Operands taken apart -/

private theorem Expr.distribution?_eq_none {place : OperandPlace} {e : Expr}
    (h : e.isExpandable = false) : e.distribution? registry limit depth place = none := by
  cases e with
  | conditional test whenTrue whenFalse =>
      rw [distribution?, h, if_neg Bool.false_ne_true]
  | coalesce left right => rw [distribution?, h, if_neg Bool.false_ne_true]
  | _ => rfl

/-- A branch that is not taken apart is handed on as it is. -/
theorem overBranch_of_not_isExpandable {place : OperandPlace} {side : BranchSide} {e : Expr}
    (h : e.isExpandable = false) (proceed : Operand → Lowering Node) :
    overBranch registry limit depth place side (some e) proceed =
      proceed (e.asOperand registry limit depth) := by
  rw [overBranch, Expr.distribution?_eq_none h]
  rfl

theorem overBranch_conditional {place : OperandPlace} {side : BranchSide} {test : Expr}
    {whenTrue whenFalse : Option Expr}
    (h : (Expr.conditional test whenTrue whenFalse).isExpandable = true)
    (proceed : Operand → Lowering Node) :
    overBranch registry limit depth place side (some (.conditional test whenTrue whenFalse))
        proceed = do
      .require (checkBranches .whenTrue .whenFalse whenTrue whenFalse)
      let test ← test.lower registry limit depth
      .emit (.distributed place.position place.method)
      let nodeTrue ← overBranch registry limit depth place .whenTrue whenTrue proceed
      let nodeFalse ← overBranch registry limit depth place .whenFalse whenFalse proceed
      return .ifThenElse test nodeTrue nodeFalse := by
  rw [overBranch, Expr.distribution?, if_pos h]

theorem overBranch_coalesce {place : OperandPlace} {side : BranchSide}
    {left right : Option Expr} (h : (Expr.coalesce left right).isExpandable = true)
    (proceed : Operand → Lowering Node) :
    overBranch registry limit depth place side (some (.coalesce left right)) proceed = do
      .require (checkBranches .coalesceLeft .coalesceRight left right)
      let test ← lowerBranch registry limit depth .coalesceLeft left
      .emit (.distributed place.position place.method)
      let nodeLeft ← overBranch registry limit depth place .coalesceLeft left proceed
      let nodeRight ← overBranch registry limit depth place .coalesceRight right proceed
      return .ifThenElse (.isNotNull test) nodeLeft nodeRight := by
  rw [overBranch, Expr.distribution?, if_pos h]

/-- Where what is handed on to makes a node for every branch, a node is made for
an operand taken apart. What is known of the nodes of the branches may be kept
in `M`, as far as a decision between two such nodes keeps it. The induction is
on the branches. -/
theorem overBranch_makes {M : Expr → Node → Prop} {place : OperandPlace} {side : BranchSide}
    {e : Expr} {proceed : Operand → Lowering Node} (hlowers : e.Lowers registry limit depth)
    (hwhole : ∀ w : Expr, w.isExpandable = false → w.Lowers registry limit depth →
      ∃ n, (proceed (w.asOperand registry limit depth)).outcome = .ok n ∧ M w n)
    (hconditional : ∀ {test a b : Expr} {nt ma mb : Node},
      (Expr.conditional test (some a) (some b)).isExpandable = true →
      test.LowersTo registry limit depth nt → M a ma → M b mb →
        M (.conditional test (some a) (some b)) (.ifThenElse nt ma mb))
    (hcoalesce : ∀ {a b : Expr} {na ma mb : Node},
      (Expr.coalesce (some a) (some b)).isExpandable = true →
      a.LowersTo registry limit depth na → M a ma → M b mb →
        M (.coalesce (some a) (some b)) (.ifThenElse (.isNotNull na) ma mb)) :
    ∃ n, (overBranch registry limit depth place side (some e) proceed).outcome = .ok n ∧
      M e n := by
  have hleaf : ∀ {side : BranchSide} {e : Expr}, e.isExpandable = false →
      e.Lowers registry limit depth →
      ∃ n, (overBranch registry limit depth place side (some e) proceed).outcome = .ok n ∧
        M e n := by
    intro side e hexpandable hlowers
    rw [overBranch_of_not_isExpandable hexpandable]
    exact hwhole e hexpandable hlowers
  induction e using Expr.operandInduction generalizing side with
  | conditional test whenTrue whenFalse ihTest ihTrue ihFalse =>
      by_cases hexpandable : (Expr.conditional test whenTrue whenFalse).isExpandable = true
      · obtain ⟨_, hn⟩ := hlowers
        obtain ⟨a, b, rfl, rfl, hfit, nt, na, nb, ht, ha, hb, -⟩ :=
          Expr.lowersTo_conditional.mp hn
        obtain ⟨ma, hma, hmakesTrue⟩ := @ihTrue a rfl .whenTrue ⟨na, ha⟩
        obtain ⟨mb, hmb, hmakesFalse⟩ := @ihFalse b rfl .whenFalse ⟨nb, hb⟩
        have hcheck : checkBranches .whenTrue .whenFalse (some a) (some b) = .ok () :=
          checkBranches_eq_ok_iff.mpr ⟨a, b, rfl, rfl, hfit⟩
        refine ⟨_, ?_, hconditional hexpandable ht hmakesTrue hmakesFalse⟩
        rw [overBranch_conditional hexpandable]
        simp only [Traced.outcome_bind_eq_ok, Expr.require_outcome_eq_ok, Traced.outcome_pure,
          Traced.outcome_emit]
        exact ⟨(), hcheck, nt, ht, (), trivial, ma, hma, mb, hmb, rfl⟩
      · exact hleaf (Bool.eq_false_iff.mpr hexpandable) hlowers
  | coalesce left right ihLeft ihRight =>
      by_cases hexpandable : (Expr.coalesce left right).isExpandable = true
      · obtain ⟨_, hn⟩ := hlowers
        obtain ⟨a, b, rfl, rfl, hfit, na, nb, ha, hb, -⟩ := Expr.lowersTo_coalesce.mp hn
        obtain ⟨ma, hma, hmakesLeft⟩ := @ihLeft a rfl .coalesceLeft ⟨na, ha⟩
        obtain ⟨mb, hmb, hmakesRight⟩ := @ihRight b rfl .coalesceRight ⟨nb, hb⟩
        have hcheck : checkBranches .coalesceLeft .coalesceRight (some a) (some b) = .ok () :=
          checkBranches_eq_ok_iff.mpr ⟨a, b, rfl, rfl, hfit⟩
        refine ⟨_, ?_, hcoalesce hexpandable ha hmakesLeft hmakesRight⟩
        rw [overBranch_coalesce hexpandable]
        simp only [Traced.outcome_bind_eq_ok, Expr.require_outcome_eq_ok, Traced.outcome_pure,
          Traced.outcome_emit]
        exact ⟨(), hcheck, na, ha, (), trivial, ma, hma, mb, hmb, rfl⟩
      · exact hleaf (Bool.eq_false_iff.mpr hexpandable) hlowers
  | _ => exact hleaf rfl hlowers

/-- Where what is handed on to has the right value for every branch, an
operand taken apart has the value for the branch that it selects. -/
theorem overBranch_yields {place : OperandPlace} {side : BranchSide} {e : Expr}
    {proceed : Operand → Lowering Node} {k : Environment → Scope → Seen → Option Value}
    (hlowers : e.Lowers registry limit depth)
    (hproceed : ∀ (w : Expr) (n : Node), w.LowersTo registry limit depth n →
      (proceed (w.asOperand registry limit depth)).Yields fun env scope =>
        n.seen? env scope >>= k env scope) :
    (overBranch registry limit depth place side (some e) proceed).Yields fun env scope =>
      e.selected? registry limit depth env scope >>= k env scope := by
  refine overBranch_makes (M := fun e n => n.constant? = none ∧ ∀ env scope,
    (n.eval env scope).toOption =
      e.selected? registry limit depth env scope >>= k env scope) hlowers ?_ ?_ ?_
  · -- an operand that is not taken apart selects itself
    intro w hexpandable hw
    obtain ⟨n, hn⟩ := hw
    refine (hproceed w n hn).congr fun env scope => ?_
    rw [Expr.selected?_of_not_isExpandable hexpandable, hn.seen?_eq]
  · intro test a b nt ma mb hexpandable ht ha hb
    refine ⟨rfl, fun env scope => ?_⟩
    rw [Hql.Node.ifThenElse_eval, toOption_bind, Expr.selected?_conditional hexpandable,
      ht.value?_eq, bind_assoc]
    congr 1
    funext v
    cases v.isTrue with
    | true => exact ha.2 env scope
    | false => exact hb.2 env scope
  · intro a b na ma mb hexpandable hna ha hb
    refine ⟨rfl, fun env scope => ?_⟩
    rw [Hql.Node.ifThenElse_eval, Hql.Node.eval, Expr.selected?_coalesce hexpandable,
      hna.value?_eq]
    simp only [toOption_bind, bind_assoc, toOption_pure]
    congr 1
    funext v
    cases hnull : v.isNull with
    | true => exact hb.2 env scope
    | false => exact ha.2 env scope

/-- Where a node was made for an operand taken apart, what is handed on to has made
the nodes of the branches. What is known of these may be kept in `M`, as far as a
decision between two such nodes keeps it. The induction is on the branches. -/
theorem overBranch_made {M : Expr → Node → Prop} {place : OperandPlace} {side : BranchSide}
    {e : Expr} {proceed : Operand → Lowering Node} {n : Node}
    (h : (overBranch registry limit depth place side (some e) proceed).outcome = .ok n)
    (hwhole : ∀ (w : Expr) (n : Node),
      (proceed (w.asOperand registry limit depth)).outcome = .ok n → M w n)
    (hconditional : ∀ {test a b : Expr} {nt ma mb : Node}, a.fitsBeside b = true →
      test.LowersTo registry limit depth nt → M a ma → M b mb →
        M (.conditional test (some a) (some b)) (.ifThenElse nt ma mb))
    (hcoalesce : ∀ {a b : Expr} {na ma mb : Node}, a.fitsBeside b = true →
      a.LowersTo registry limit depth na → M a ma → M b mb →
        M (.coalesce (some a) (some b)) (.ifThenElse (.isNotNull na) ma mb)) :
    M e n := by
  have hleaf : ∀ {side : BranchSide} {e : Expr} {n : Node}, e.isExpandable = false →
      (overBranch registry limit depth place side (some e) proceed).outcome = .ok n → M e n := by
    intro side e n hexpandable h
    rw [overBranch_of_not_isExpandable hexpandable] at h
    exact hwhole e n h
  induction e using Expr.operandInduction generalizing side n with
  | conditional test whenTrue whenFalse ihTest ihTrue ihFalse =>
      by_cases hexpandable : (Expr.conditional test whenTrue whenFalse).isExpandable = true
      · rw [overBranch_conditional hexpandable] at h
        simp only [Traced.outcome_bind_eq_ok, Expr.require_outcome_eq_ok] at h
        obtain ⟨_, hcheck, nt, ht, _, -, ma, hma, mb, hmb, hn⟩ := h
        obtain ⟨a, b, rfl, rfl, hfit⟩ := checkBranches_eq_ok_iff.mp hcheck
        obtain rfl := Except.ok.inj hn
        exact hconditional hfit ht (ihTrue a rfl hma) (ihFalse b rfl hmb)
      · exact hleaf (Bool.eq_false_iff.mpr hexpandable) h
  | coalesce left right ihLeft ihRight =>
      by_cases hexpandable : (Expr.coalesce left right).isExpandable = true
      · rw [overBranch_coalesce hexpandable] at h
        simp only [Traced.outcome_bind_eq_ok, Expr.require_outcome_eq_ok] at h
        obtain ⟨_, hcheck, na, ha, _, -, ma, hma, mb, hmb, hn⟩ := h
        obtain ⟨a, b, rfl, rfl, hfit⟩ := checkBranches_eq_ok_iff.mp hcheck
        obtain rfl := Except.ok.inj hn
        exact hcoalesce hfit ha (ihLeft a rfl hma) (ihRight b rfl hmb)
      · exact hleaf (Bool.eq_false_iff.mpr hexpandable) h
  | _ => exact hleaf rfl h

/-- An operand taken apart can be lowered, and what is handed on to succeeds
for some branch. -/
theorem lowers_of_overBranch {place : OperandPlace} {side : BranchSide} {e : Expr}
    {proceed : Operand → Lowering Node} {Q : Prop} {n : Node}
    (h : (overBranch registry limit depth place side (some e) proceed).outcome = .ok n)
    (hproceed : ∀ (w : Expr) (n : Node), (proceed (w.asOperand registry limit depth)).outcome = .ok n →
      w.Lowers registry limit depth ∧ Q) :
    e.Lowers registry limit depth ∧ Q := by
  refine overBranch_made (M := fun e _ => e.Lowers registry limit depth ∧ Q) h hproceed ?_ ?_
  · intro test a b nt ma mb hfit ht ha hb
    obtain ⟨⟨na, hna⟩, hQ⟩ := ha
    obtain ⟨⟨nb, hnb⟩, -⟩ := hb
    exact ⟨⟨_, Expr.lowersTo_conditional.mpr
      ⟨a, b, rfl, rfl, hfit, nt, na, nb, ht, hna, hnb, rfl⟩⟩, hQ⟩
  · intro a b na ma mb hfit hna _ hb
    obtain ⟨⟨nb, hnb⟩, hQ⟩ := hb
    exact ⟨⟨_, Expr.lowersTo_coalesce.mpr ⟨a, b, rfl, rfl, hfit, na, nb, hna, hnb, rfl⟩⟩, hQ⟩

/-! ## All operands of a call -/

/-- A call with an expression in the place of an operand, distributed over it
where the handler lets it be. -/
def Expr.over (registry : Registry) (limit depth : Nat) (place : OperandPlace) (e : Expr)
    (proceed : Operand → Lowering Node) : Lowering Node :=
  match place.expansion with
  | .bareBranching => overBranch registry limit depth place .whenTrue (some e) proceed
  | .never => proceed (e.asOperand registry limit depth)

/-- An operand that is not taken apart is handed on as it is. -/
theorem Expr.over_of_not_isExpandable {place : OperandPlace} {e : Expr}
    (h : e.isExpandable = false) (proceed : Operand → Lowering Node) :
    e.over registry limit depth place proceed = proceed (e.asOperand registry limit depth) := by
  unfold Expr.over
  cases place.expansion with
  | never => rfl
  | bareBranching => exact overBranch_of_not_isExpandable h proceed

theorem overTarget_some {place : OperandPlace} {e : Expr}
    (proceed : Option Operand → Lowering Node) :
    overTarget registry limit depth place (some e) proceed =
      e.over registry limit depth place fun operand => proceed (some operand) := by
  rw [overTarget, Expr.over]
  cases place.expansion with
  | never => rfl
  | bareBranching =>
      rw [overBranch]
      cases e.distribution? registry limit depth place <;> rfl

theorem overArguments_cons {place : OperandPlace} {e : Expr} {rest : List Expr}
    (proceed : List Operand → Lowering Node) :
    overArguments registry limit depth place (e :: rest) proceed =
      e.over registry limit depth place fun operand =>
        overArguments registry limit depth place.next rest fun operands =>
          proceed (operand :: operands) := by
  rw [overArguments, Expr.over]
  cases place.expansion with
  | never => rfl
  | bareBranching =>
      rw [overBranch]
      cases e.distribution? registry limit depth place <;> rfl

private theorem Expr.over_yields {place : OperandPlace} {e : Expr}
    {proceed : Operand → Lowering Node}
    {k : Environment → Scope → Seen → Option Value} (hlowers : e.Lowers registry limit depth)
    (hproceed : ∀ (w : Expr) (n : Node), w.LowersTo registry limit depth n →
      (proceed (w.asOperand registry limit depth)).Yields fun env scope =>
        n.seen? env scope >>= k env scope) :
    (e.over registry limit depth place proceed).Yields fun env scope =>
      e.operand? registry limit depth env scope place.expansion >>= k env scope := by
  unfold Expr.over Expr.operand?
  cases place.expansion with
  | bareBranching => exact overBranch_yields hlowers hproceed
  | never =>
      obtain ⟨n, hn⟩ := hlowers
      refine (hproceed e n hn).congr fun env scope => ?_
      rw [hn.seen?_eq]

private theorem Expr.lowers_of_over {place : OperandPlace} {e : Expr}
    {proceed : Operand → Lowering Node} {Q : Prop} {n : Node}
    (h : (e.over registry limit depth place proceed).outcome = .ok n)
    (hproceed : ∀ (w : Expr) (n : Node),
      (proceed (w.asOperand registry limit depth)).outcome = .ok n →
        w.Lowers registry limit depth ∧ Q) :
    e.Lowers registry limit depth ∧ Q := by
  unfold Expr.over at h
  cases hexpansion : place.expansion with
  | bareBranching =>
      rw [hexpansion] at h
      exact lowers_of_overBranch h hproceed
  | never =>
      rw [hexpansion] at h
      exact hproceed e n h

/-- Where what is handed on to has the right value for all settled operands,
the call has the value for the operands that are selected. -/
theorem overArguments_yields {place : OperandPlace} {arguments : List Expr}
    {proceed : List Operand → Lowering Node}
    {k : Environment → Scope → List Seen → Option Value}
    (hlowers : ∀ e ∈ arguments, e.Lowers registry limit depth)
    (hproceed : ∀ (ws : List Expr) (ns : List Node), ws.length = arguments.length →
      List.Forall₂ (Expr.LowersTo registry limit depth) ws ns →
        (proceed (ws.map (Expr.asOperand registry limit depth))).Yields fun env scope =>
          ns.mapM (Hql.Node.seen? env scope) >>= k env scope) :
    (overArguments registry limit depth place arguments proceed).Yields fun env scope =>
      (arguments.mapM fun e =>
        e.operand? registry limit depth env scope place.expansion) >>= k env scope := by
  induction arguments generalizing place proceed k with
  | nil =>
      rw [overArguments]
      exact hproceed [] [] rfl .nil
  | cons e rest ih =>
      rw [overArguments_cons]
      -- the remaining operands are looked at before what was handed on
      have hrest : ∀ (w : Expr) (n : Node), w.LowersTo registry limit depth n →
          (overArguments registry limit depth place.next rest fun operands =>
            proceed (w.asOperand registry limit depth :: operands)).Yields fun env scope =>
            n.seen? env scope >>= fun x =>
              (rest.mapM fun e =>
                e.operand? registry limit depth env scope place.expansion) >>= fun xs =>
                  k env scope (x :: xs) := by
        intro w n hw
        have hyields := @ih place.next
          (fun operands => proceed (w.asOperand registry limit depth :: operands))
          (fun env scope xs => n.seen? env scope >>= fun x => k env scope (x :: xs))
          (fun e he => hlowers e (List.mem_cons_of_mem _ he)) ?_
        · refine hyields.congr fun env scope => ?_
          exact Option.bind_comm _ _
        · intro ws ns hlength hall
          have hwhole := hproceed (w :: ws) (n :: ns) (by simp [hlength]) (.cons hw hall)
          refine hwhole.congr fun env scope => ?_
          simp only [List.mapM_cons, bind_assoc, pure_bind]
          exact Option.bind_comm _ _
      refine (Expr.over_yields (hlowers e List.mem_cons_self) hrest).congr fun env scope => ?_
      simp only [List.mapM_cons, bind_assoc, pure_bind]

private theorem lowers_of_overArguments {place : OperandPlace} {arguments : List Expr}
    {proceed : List Operand → Lowering Node} {Q : Prop} {n : Node}
    (h : (overArguments registry limit depth place arguments proceed).outcome = .ok n)
    (hproceed : ∀ (ws : List Expr) (n : Node), ws.length = arguments.length →
      (proceed (ws.map (Expr.asOperand registry limit depth))).outcome = .ok n →
        (∀ w ∈ ws, w.Lowers registry limit depth) ∧ Q) :
    (∀ e ∈ arguments, e.Lowers registry limit depth) ∧ Q := by
  induction arguments generalizing place proceed n Q with
  | nil =>
      rw [overArguments] at h
      exact hproceed [] n rfl h
  | cons e rest ih =>
      rw [overArguments_cons] at h
      have hrest := Expr.lowers_of_over h
        (Q := (∀ e ∈ rest, e.Lowers registry limit depth) ∧ Q) ?_
      · obtain ⟨he, hrest, hQ⟩ := hrest
        exact ⟨List.forall_mem_cons.mpr ⟨he, hrest⟩, hQ⟩
      · intro w n hw
        have hall := ih (Q := w.Lowers registry limit depth ∧ Q) hw ?_
        · exact ⟨hall.2.1, hall.1, hall.2.2⟩
        · intro ws n hlength hws
          obtain ⟨hlowers, hQ⟩ := hproceed (w :: ws) n (by simp [hlength]) hws
          obtain ⟨hw, hws⟩ := List.forall_mem_cons.mp hlowers
          exact ⟨hws, hw, hQ⟩

/-! ## Calls -/

section

variable {handler : Handler} {method : MethodSignature} {target : Option Expr}
  {arguments : List Expr} {type : StaticType}

/-- The operands of a call site are lowered in their order. -/
theorem lowered_operands_iff {es : List Expr} {ns : List Node} :
    ((es.map (Expr.asOperand registry limit depth)).mapM Operand.lowered).outcome = .ok ns ↔
      List.Forall₂ (Expr.LowersTo registry limit depth) es ns := by
  have hmapM := @Traced.Success.mapM_iff _ _ _ (@Traced.Success.anyhow LoweringEvent LoweringError)
    Operand Operand.lowered (es.map (Expr.asOperand registry limit depth)) ns
  refine hmapM.trans ?_
  rw [List.forall₂_map_left_iff]
  rfl

/-- A handler is called with the nodes of all operands. -/
theorem callHandler_outcome_iff {n : Node} :
    (callHandler handler method (target.map (Expr.asOperand registry limit depth))
        (arguments.map (Expr.asOperand registry limit depth))).outcome = .ok n ↔
      ∃ nt ns, Option.Rel (Expr.LowersTo registry limit depth) target nt ∧
        List.Forall₂ (Expr.LowersTo registry limit depth) arguments ns ∧
        handler.generator.emit ⟨method, target, arguments, nt, ns⟩ = .ok n := by
  have hwritten : (arguments.map (Expr.asOperand registry limit depth)).map Operand.written =
      arguments := by
    rw [List.map_map]
    exact List.map_id arguments
  cases target with
  | none =>
      unfold callHandler
      simp only [Option.map_none, Traced.outcome_bind_eq_ok, Traced.outcome_pure,
        Traced.outcome_emit, Traced.outcome_ofExcept, lowered_operands_iff, hwritten]
      constructor
      · intro h
        obtain ⟨nt, hnt, ns, hns, _, -, hemit⟩ := h
        obtain rfl := Except.ok.inj hnt
        exact ⟨none, ns, .none, hns, hemit⟩
      · intro h
        obtain ⟨nt, ns, hnt, hns, hemit⟩ := h
        cases hnt
        exact ⟨none, rfl, ns, hns, (), trivial, hemit⟩
  | some e =>
      unfold callHandler
      simp only [Option.map_some, Traced.outcome_bind_eq_ok, Traced.outcome_pure,
        Traced.outcome_emit, Traced.outcome_ofExcept, lowered_operands_iff, hwritten]
      constructor
      · intro h
        obtain ⟨a, ha, nt, hnt, ns, hns, _, -, hemit⟩ := h
        obtain rfl := Except.ok.inj hnt
        exact ⟨some a, ns, .some ha, hns, hemit⟩
      · intro h
        obtain ⟨nt, ns, hnt, hns, hemit⟩ := h
        cases hnt with
        | some ha => exact ⟨_, ha, _, rfl, ns, hns, (), trivial, hemit⟩

/-- A handler that is given operands which can be lowered, and as many as it
takes, makes a node with its meaning. -/
theorem callHandler_yields (target : Option Expr) (nt : Option Node)
    (hplain : handler.generator.isPlain = true) {ns : List Node}
    (htarget : Option.Rel (Expr.LowersTo registry limit depth) target nt)
    (harguments : List.Forall₂ (Expr.LowersTo registry limit depth) arguments ns)
    (haccepts : handler.generator.Accepts (nt.toList ++ ns).length) :
    (callHandler handler method (target.map (Expr.asOperand registry limit depth))
      (arguments.map (Expr.asOperand registry limit depth))).Yields fun env scope =>
        (nt.toList ++ ns).mapM (Hql.Node.seen? env scope) >>= handler.generator.meaning := by
  have hoperands : handler.generator.Accepts
      (CallSite.operands ⟨method, target, arguments, nt, ns⟩).length := haccepts
  obtain ⟨n, hemit, hconstant, hvalue⟩ := emit_meaning hplain hoperands
  exact ⟨n, callHandler_outcome_iff.mpr ⟨nt, ns, htarget, harguments, hemit⟩, hconstant, hvalue⟩

/-- A handler that makes a node was given operands which can be lowered. -/
theorem lowers_of_callHandler (target : Option Expr) {n : Node}
    (h : (callHandler handler method (target.map (Expr.asOperand registry limit depth))
      (arguments.map (Expr.asOperand registry limit depth))).outcome = .ok n) :
    (∀ e ∈ arguments, e.Lowers registry limit depth) ∧
      (∀ e, target = some e → e.Lowers registry limit depth) ∧
      handler.generator.EmitsFor (target.toList ++ arguments).length := by
  obtain ⟨nt, ns, htarget, harguments, hemit⟩ := callHandler_outcome_iff.mp h
  refine ⟨?_, ?_, ?_⟩
  · intro e he
    obtain ⟨m, -, hm⟩ := exists_right_of_forall₂ harguments he
    exact ⟨m, hm⟩
  · intro e he
    subst he
    cases htarget with
    | some hm => exact ⟨_, hm⟩
  · have hlength : (target.toList ++ arguments).length = (nt.toList ++ ns).length := by
      rw [List.length_append, List.length_append, harguments.length_eq]
      cases htarget <;> rfl
    exact ⟨⟨method, target, arguments, nt, ns⟩, n, hlength.symm, hemit⟩

/-- What a call is lowered as, once its handler is found. -/
theorem lower_call_eq (hlookup : registry.lookup method = some handler) :
    (Expr.call method target arguments type).lower registry limit depth =
      overTarget registry limit depth ⟨method, handler.expansion, 0⟩ target fun target' =>
        overArguments registry limit depth
          (if target'.isSome then OperandPlace.next ⟨method, handler.expansion, 0⟩
            else ⟨method, handler.expansion, 0⟩)
          arguments fun arguments' => callHandler handler method target' arguments' := by
  rw [Expr.lower, hlookup]

section

variable {I : Expr → Prop} {P : Node → Prop}
  (hconditional : ∀ {test a b : Expr} {nt ma mb : Node}, test.LowersTo registry limit depth nt →
    I (.conditional test (some a) (some b)) → (I a → P ma) → (I b → P mb) →
      P (.ifThenElse nt ma mb))
  (hcoalesce : ∀ {a b : Expr} {na ma mb : Node}, a.LowersTo registry limit depth na →
    I (.coalesce (some a) (some b)) → (I a → P ma) → (I b → P mb) →
      P (.ifThenElse (.isNotNull na) ma mb))

include hconditional hcoalesce

/-- What is known of an operand decides what is known of the node for it, if it does
so for what is handed on to and for decisions. -/
theorem Expr.over_meets {place : OperandPlace} {e : Expr} {proceed : Operand → Lowering Node}
    {n : Node} (he : I e)
    (hproceed : ∀ w : Expr, I w → ∀ n,
      (proceed (w.asOperand registry limit depth)).outcome = .ok n → P n)
    (h : (e.over registry limit depth place proceed).outcome = .ok n) : P n := by
  unfold Expr.over at h
  cases hexpansion : place.expansion with
  | bareBranching =>
      rw [hexpansion] at h
      exact overBranch_made (M := fun e n => I e → P n) h (fun w n hn hw => hproceed w hw n hn)
        (fun _ ht ha hb hI => hconditional ht hI ha hb)
        (fun _ hna ha hb hI => hcoalesce hna hI ha hb) he
  | never =>
      rw [hexpansion] at h
      exact hproceed e he n h

private theorem overArguments_meets {place : OperandPlace} {proceed : List Operand → Lowering Node}
    {n : Node} (harguments : ∀ e ∈ arguments, I e)
    (hproceed : ∀ ws : List Expr, (∀ w ∈ ws, I w) → ∀ n,
      (proceed (ws.map (Expr.asOperand registry limit depth))).outcome = .ok n → P n)
    (h : (overArguments registry limit depth place arguments proceed).outcome = .ok n) : P n := by
  induction arguments generalizing place proceed n with
  | nil =>
      rw [overArguments] at h
      exact hproceed [] (by simp) n h
  | cons e rest ih =>
      obtain ⟨he, hrest⟩ := List.forall_mem_cons.mp harguments
      rw [overArguments_cons] at h
      refine Expr.over_meets hconditional hcoalesce he (fun w hw n hn => ?_) h
      refine ih hrest (fun ws hws n hn => ?_) hn
      exact hproceed (w :: ws) (List.forall_mem_cons.mpr ⟨hw, hws⟩) n hn

/-- What is known of the operands of a call decides what is known of its node, no
matter over which operands it is distributed, if it does so for what the handler
emits and for decisions. -/
theorem Expr.call_meets {n : Node} (hlookup : registry.lookup method = some handler)
    (hoperands : ∀ e ∈ target.toList ++ arguments, I e)
    (hemits : ∀ (site : CallSite), (∀ m ∈ site.operands, ∃ e, I e ∧
      e.LowersTo registry limit depth m) → ∀ n, handler.generator.emit site = .ok n → P n)
    (h : (call method target arguments type).LowersTo registry limit depth n) : P n := by
  have hhandler : ∀ (target : Option Expr) (ws : List Expr), (∀ e ∈ target.toList ++ ws, I e) →
      ∀ n, (callHandler handler method (target.map (Expr.asOperand registry limit depth))
        (ws.map (Expr.asOperand registry limit depth))).outcome = .ok n → P n := by
    intro target ws hall n hn
    obtain ⟨nt, ns, htarget, hns, hemit⟩ := callHandler_outcome_iff.mp hn
    have hlowered : List.Forall₂ (Expr.LowersTo registry limit depth) (target.toList ++ ws)
        (nt.toList ++ ns) := by
      cases htarget with
      | none => exact hns
      | some hnt => exact .cons hnt hns
    refine hemits _ (fun m hm => ?_) n hemit
    obtain ⟨e, he, hem⟩ := exists_left_of_forall₂ hlowered hm
    exact ⟨e, hall e he, hem⟩
  have harguments : ∀ e ∈ arguments, I e := fun e he =>
    hoperands e (List.mem_append_right _ he)
  unfold LowersTo at h
  rw [lower_call_eq hlookup] at h
  cases target with
  | none =>
      rw [overTarget] at h
      exact overArguments_meets hconditional hcoalesce harguments (hhandler none) h
  | some e =>
      rw [overTarget_some] at h
      refine over_meets hconditional hcoalesce (hoperands e (by simp)) (fun w hw n hn => ?_) h
      refine overArguments_meets hconditional hcoalesce harguments (fun ws hws n hn => ?_) hn
      exact hhandler (some w) ws (List.forall_mem_cons.mpr ⟨hw, hws⟩) n hn

end

/-- A call can be lowered only if a handler is found, the operands can be
lowered, and the handler makes nodes of as many. -/
theorem lowers_of_call
    (h : (Expr.call method target arguments type).Lowers registry limit depth) :
    ∃ handler, registry.lookup method = some handler ∧
      (∀ e ∈ target.toList ++ arguments, e.Lowers registry limit depth) ∧
      handler.generator.EmitsFor (target.toList ++ arguments).length := by
  obtain ⟨n, h⟩ := h
  unfold Expr.LowersTo at h
  cases hlookup : registry.lookup method with
  | none =>
      rw [Expr.lower, hlookup] at h
      cases h
  | some handler =>
      refine ⟨handler, rfl, ?_⟩
      rw [lower_call_eq hlookup] at h
      have hfinal : (∀ e ∈ arguments, e.Lowers registry limit depth) ∧
          (∀ e, target = some e → e.Lowers registry limit depth) ∧
          handler.generator.EmitsFor (target.toList ++ arguments).length := by
        cases target with
        | none =>
            rw [overTarget] at h
            refine lowers_of_overArguments h fun ws n hlength hws => ?_
            obtain ⟨hws, -, hemits⟩ := lowers_of_callHandler none hws
            refine ⟨hws, by simp, ?_⟩
            rw [List.length_append, ← hlength, ← List.length_append]
            exact hemits
        | some e =>
            rw [overTarget_some] at h
            have hover := Expr.lowers_of_over h
              (Q := (∀ e ∈ arguments, e.Lowers registry limit depth) ∧
                handler.generator.EmitsFor ((some e).toList ++ arguments).length) ?_
            · obtain ⟨he, harguments, hemits⟩ := hover
              refine ⟨harguments, ?_, hemits⟩
              intro e' he'
              obtain rfl := Option.some.inj he'
              exact he
            · intro w n hw
              have hall := lowers_of_overArguments hw
                (Q := w.Lowers registry limit depth ∧
                  handler.generator.EmitsFor ((some e).toList ++ arguments).length) ?_
              · exact ⟨hall.2.1, hall.1, hall.2.2⟩
              · intro ws n hlength hws
                obtain ⟨hws, hw, hemits⟩ := lowers_of_callHandler (some w) hws
                refine ⟨hws, hw w rfl, ?_⟩
                rw [List.length_append, ← hlength, ← List.length_append]
                exact hemits
      obtain ⟨harguments, htarget, hemits⟩ := hfinal
      refine ⟨?_, hemits⟩
      intro e he
      rcases List.mem_append.mp he with he | he
      · exact htarget e (Option.mem_toList.mp he)
      · exact harguments e he

/-- A call has the meaning of its handler on the operands that are selected. -/
theorem call_yields (type : StaticType) (hplain : registry.IsPlain)
    (hlookup : registry.lookup method = some handler)
    (hlowers : ∀ e ∈ target.toList ++ arguments, e.Lowers registry limit depth)
    (haccepts : handler.generator.Accepts (target.toList ++ arguments).length) :
    ((Expr.call method target arguments type).lower registry limit depth).Yields
      fun env scope =>
        ((target.toList ++ arguments).mapM fun e =>
          e.operand? registry limit depth env scope handler.expansion) >>=
            handler.generator.meaning := by
  rw [lower_call_eq hlookup]
  have hmember := hplain method handler hlookup
  have harguments : ∀ e ∈ arguments, e.Lowers registry limit depth := fun e he =>
    hlowers e (List.mem_append_right _ he)
  cases target with
  | none =>
      rw [overTarget]
      refine (overArguments_yields (k := fun _ _ => handler.generator.meaning) harguments
        fun ws ns hlength hall => ?_).congr fun env scope => rfl
      refine callHandler_yields none none hmember .none hall ?_
      rw [List.length_append, ← hall.length_eq, hlength]
      rw [List.length_append] at haccepts
      exact haccepts
  | some e =>
      rw [overTarget_some]
      rw [List.length_append] at haccepts
      refine (Expr.over_yields (k := fun env scope x =>
        (arguments.mapM fun e => e.operand? registry limit depth env scope handler.expansion) >>=
          fun xs => handler.generator.meaning (x :: xs))
        (hlowers e (by simp)) fun w n hw => ?_).congr fun env scope => ?_
      · refine (overArguments_yields
          (k := fun env scope xs =>
            n.seen? env scope >>= fun x => handler.generator.meaning (x :: xs)) harguments
          fun ws ns hlength hall => ?_).congr fun env scope => Option.bind_comm _ _
        refine (callHandler_yields (some w) (some n) hmember (.some hw) hall
          ?_).congr fun env scope => ?_
        · rw [List.length_append, ← hall.length_eq, hlength]
          exact haccepts
        · simp only [Option.toList_some, List.cons_append, List.nil_append, List.mapM_cons,
            bind_assoc, pure_bind]
          exact Option.bind_comm _ _
      · simp only [Option.toList_some, List.cons_append, List.nil_append, List.mapM_cons,
          bind_assoc, pure_bind]

end

/-! ## The operands of what can be lowered -/

namespace Expr.Lowers

variable {e : Expr}

theorem operands (h : e.Lowers registry limit depth) {operand : Expr}
    (hoperand : operand ∈ e.operands) : operand.Lowers registry limit depth := by
  cases e with
  | unary operator inner type =>
      obtain ⟨n, hn⟩ := h
      obtain ⟨a, ha, -⟩ := lowersTo_unary.mp hn
      rw [List.mem_singleton.mp hoperand]
      exact ⟨a, ha⟩
  | binary operator left right =>
      obtain ⟨n, hn⟩ := h
      obtain ⟨a, b, ha, hb, -⟩ := lowersTo_binary.mp hn
      rcases List.mem_cons.mp hoperand with rfl | hoperand
      · exact ⟨a, ha⟩
      · rw [List.mem_singleton.mp hoperand]
        exact ⟨b, hb⟩
  | member target name type =>
      obtain ⟨n, hn⟩ := h
      obtain ⟨a, ha, -⟩ := lowersTo_member.mp hn
      rw [List.mem_singleton.mp hoperand]
      exact ⟨a, ha⟩
  | call method target arguments type =>
      obtain ⟨-, -, hoperands, -⟩ := lowers_of_call h
      exact hoperands operand hoperand
  | conditional test whenTrue whenFalse =>
      obtain ⟨n, hn⟩ := h
      obtain ⟨a, b, rfl, rfl, -, nt, na, nb, ht, ha, hb, -⟩ := lowersTo_conditional.mp hn
      simp only [Expr.operands, Option.toList_some, List.mem_cons, List.mem_append,
        List.not_mem_nil, or_false] at hoperand
      rcases hoperand with rfl | rfl | rfl
      · exact ⟨nt, ht⟩
      · exact ⟨na, ha⟩
      · exact ⟨nb, hb⟩
  | coalesce left right =>
      obtain ⟨n, hn⟩ := h
      obtain ⟨a, b, rfl, rfl, -, na, nb, ha, hb, -⟩ := lowersTo_coalesce.mp hn
      simp only [Expr.operands, Option.toList_some, List.mem_append, List.mem_cons,
        List.not_mem_nil, or_false] at hoperand
      rcases hoperand with rfl | rfl
      · exact ⟨na, ha⟩
      · exact ⟨nb, hb⟩
  | _ => cases hoperand

/-- The branches of what can be lowered fit. -/
theorem checkBranches (h : e.Lowers registry limit depth) : e.checkBranches = .ok () := by
  obtain ⟨n, hn⟩ := h
  cases e with
  | conditional test whenTrue whenFalse =>
      obtain ⟨a, b, hwhenTrue, hwhenFalse, hfit, -⟩ := lowersTo_conditional.mp hn
      exact checkBranches_conditional_iff.mpr ⟨a, b, hwhenTrue, hwhenFalse, hfit⟩
  | coalesce left right =>
      obtain ⟨a, b, hleft, hright, hfit, -⟩ := lowersTo_coalesce.mp hn
      exact checkBranches_coalesce_iff.mpr ⟨a, b, hleft, hright, hfit⟩
  | _ => rfl

/-- What can be lowered has no malformed node. -/
theorem isSound (h : e.Lowers registry limit depth) : e.IsSound := by
  induction e using Expr.inductionOnOperands with
  | step e ih =>
      exact isSound_iff_operands.mpr
        ⟨h.checkBranches, fun operand hoperand => ih operand hoperand (h.operands hoperand)⟩

/-- The subqueries in what can be lowered can be lowered. -/
theorem of_holds (h : e.Lowers registry limit depth) {model : QueryModel}
    (hmodel : e.Holds model) :
    (subquery model).Lowers registry limit depth := by
  induction e using Expr.inductionOnOperands with
  | step e ih =>
      rcases holds_iff_operands.mp hmodel with rfl | ⟨operand, hoperand, hmodel⟩
      · exact h
      · exact ih operand hoperand (h.operands hoperand) hmodel

end Expr.Lowers

end ObjectQuery
