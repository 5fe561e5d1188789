import ObjectQuery.Proofs.Inline.Calls
import ObjectQuery.Proofs.Inline.Expr
import ObjectQuery.Proofs.Lowering.Succeeds

/-!
# Inlining and lowering

A model with a parameter inlined can be lowered exactly if the model can. The
two queries need not be the same with the parameter inlined in the second one
too: a text is escaped at once where it is a literal. But they follow each
other, so they have the same results.

For the operands of calls there is more to be said, since a call sees of an
operand whether it is a constant, and since a call may be distributed over
the branches of an operand. Inlining changes neither which branch is selected
nor its value.

## Main definitions

* `Expr.LowersInlined` — inlining before lowering comes to the same as after it.

## Main results

* `Expr.inline_lowers_iff`, `QueryModel.inline_lowers_iff` — inlining keeps what
  can be lowered.
* `Expr.LowersInlined.call` — calls, which see whether an operand is a constant.
-/

namespace ObjectQuery

open Hql (Node Query Aggregate)

variable {registry : Registry} {limit depth : Nat} {name : String} {value : Literal}

/-! ## What can be lowered -/

section

variable {e : Expr} {model : QueryModel}

private theorem ResultOperator.inline_kind (operator : ResultOperator) :
    (operator.inline name value).kind = operator.kind := by
  cases operator <;> rfl

/-- Inlining keeps what is asked of a node, its operands aside. -/
theorem Expr.inline_nodeLowers_iff (hscalar : value.isScalar = true)
    (h : e.Declares name value.type)
    (hsubqueries : depth < limit → ∀ model, e.Holds model →
      ((model.inline name value).Lowers registry limit (depth + 1) ↔
        model.Lowers registry limit (depth + 1))) :
    (e.inline name value).NodeLowers registry limit depth ↔ e.NodeLowers registry limit depth := by
  have hcheck := inline_checkBranches hscalar h
  cases e with
  | call method target arguments type =>
      have hlength : ((inlineOption name value target).toList ++
          inlineList name value arguments).length = (target.toList ++ arguments).length := by
        rw [inlineOption_eq, inlineList_eq, Option.toList_map, ← List.map_append, List.length_map]
      rw [inline]
      simp only [NodeLowers, hlength]
  | subquery model =>
      rw [inline]
      exact and_congr_right fun hdepth => hsubqueries hdepth model (by simp)
  | parameter other type =>
      rw [inline]
      split <;> rfl
  | conditional | coalesce =>
      rw [inline] at hcheck ⊢
      simp only [NodeLowers, hcheck]
  | _ => rfl

/-- Where inlining keeps which subqueries can be lowered, it keeps whether the
expression can. -/
theorem Expr.inline_lowers_iff_of_subqueries (hscalar : value.isScalar = true)
    (hjudges : registry.JudgesByCount) (h : e.Declares name value.type)
    (hsubqueries : depth < limit → ∀ model, e.Holds model →
      ((model.inline name value).Lowers registry limit (depth + 1) ↔
        model.Lowers registry limit (depth + 1))) :
    (e.inline name value).Lowers registry limit depth ↔ e.Lowers registry limit depth := by
  induction e using Expr.inductionOnOperands with
  | step e ih =>
      have hoperands : (∀ operand ∈ e.operands,
          (operand.inline name value).Lowers registry limit depth) ↔
            ∀ operand ∈ e.operands, operand.Lowers registry limit depth := by
        refine forall₂_congr fun operand hoperand => ?_
        refine ih operand hoperand (h.operand hoperand) fun hdepth model hmodel => ?_
        exact hsubqueries hdepth model (holds_iff_operands.mpr (.inr ⟨operand, hoperand, hmodel⟩))
      rw [lowers_iff hjudges, lowers_iff hjudges, inline_nodeLowers_iff hscalar h hsubqueries,
        inline_operands, List.forall_mem_map, hoperands]

/-- Where inlining keeps which expressions of a model can be lowered, it keeps
whether the model can. -/
theorem QueryModel.inline_lowers_iff_of_expressions
    (h : ∀ e ∈ model.expressions,
      ((e.inline name value).Lowers registry limit depth ↔ e.Lowers registry limit depth)) :
    (model.inline name value).Lowers registry limit depth ↔
      model.Lowers registry limit depth := by
  have hsources : (∀ e ∈ model.sourceExpressions,
      (e.inline name value).Lowers registry limit depth) ↔
        ∀ e ∈ model.sourceExpressions, e.Lowers registry limit depth :=
    forall₂_congr fun e he => h e (List.mem_append_left _ he)
  have hclauses : (∀ e ∈ model.clauseExpressions,
      (e.inline name value).Lowers registry limit depth) ↔
        ∀ e ∈ model.clauseExpressions, e.Lowers registry limit depth :=
    forall₂_congr fun e he => h e (List.mem_append_right _ he)
  have hkinds : (model.inline name value).operators.map ResultOperator.kind =
      model.operators.map ResultOperator.kind := by
    rw [inline_eq, List.map_map]
    congr 1
    funext operator
    exact operator.inline_kind
  rw [lowers_iff, lowers_iff, inline_sourceExpressions, inline_clauseExpressions,
    List.forall_mem_map, List.forall_mem_map, hsources, hclauses, hkinds, inline_source,
    Option.isSome_map]

/-- An expression can be lowered exactly if it can be with a parameter inlined. The
induction is on how many subqueries may still be entered. -/
theorem Expr.inline_lowers_iff (hscalar : value.isScalar = true)
    (hjudges : registry.JudgesByCount) (h : e.Declares name value.type) :
    (e.inline name value).Lowers registry limit depth ↔ e.Lowers registry limit depth := by
  obtain ⟨budget, hbudget⟩ : ∃ budget, limit ≤ depth + budget := ⟨limit, by omega⟩
  induction budget generalizing e depth with
  | zero =>
      apply inline_lowers_iff_of_subqueries hscalar hjudges h
      intro hdepth
      omega
  | succ budget ih =>
      apply inline_lowers_iff_of_subqueries hscalar hjudges h
      intro _ model hmodel
      have hdeclares := h.of_holds hmodel
      exact QueryModel.inline_lowers_iff_of_expressions fun e he => ih (hdeclares e he) (by omega)

theorem QueryModel.inline_lowers_iff (hscalar : value.isScalar = true)
    (hjudges : registry.JudgesByCount) (h : model.Declares name value.type) :
    (model.inline name value).Lowers registry limit depth ↔
      model.Lowers registry limit depth :=
  inline_lowers_iff_of_expressions fun e he => Expr.inline_lowers_iff hscalar hjudges (h e he)

end

/-! ## What becomes of expressions -/

/-- Inlining a parameter before the expression is lowered comes to the same as
inlining it after that, and binding it. -/
structure Expr.LowersInlined (registry : Registry) (limit depth : Nat) (name : String)
    (value : Literal) (e : Expr) : Prop where
  node : ∃ n n', e.LowersTo registry limit depth n ∧
    (e.inline name value).LowersTo registry limit depth n' ∧
      (n.inline name value).Follows false n'
  selected : ∀ {env bound}, env.Supplies name (.ofLiteral value) bound → ∀ scope,
    Option.Rel Seen.Agrees (e.selected? registry limit depth bound scope)
      ((e.inline name value).selected? registry limit depth env scope)

namespace Expr.LowersInlined

variable {e a b t : Expr}

/-- Where the expression is not taken apart, the nodes decide. -/
theorem of_selected {e' : Expr} {n n' : Node} (hscalar : value.isScalar = true)
    (hinline : e.inline name value = e') (hn : e.LowersTo registry limit depth n)
    (hn' : e'.LowersTo registry limit depth n') (hfollows : (n.inline name value).Follows false n')
    (hexpandable : e'.isExpandable = e.isExpandable)
    (hselected : e.isExpandable = true → e'.isExpandable = true →
      ∀ {env bound}, env.Supplies name (.ofLiteral value) bound → ∀ scope,
        Option.Rel Seen.Agrees (e.selected? registry limit depth bound scope)
          (e'.selected? registry limit depth env scope)) :
    e.LowersInlined registry limit depth name value := by
  subst hinline
  refine ⟨⟨n, n', hn, hn', hfollows⟩, fun hsupplies scope => ?_⟩
  by_cases h : e.isExpandable = true
  · exact hselected h (hexpandable.trans h) hsupplies scope
  · rw [Bool.not_eq_true] at h
    rw [selected?_of_not_isExpandable h, selected?_of_not_isExpandable (hexpandable.trans h),
      hn.seen?_eq, hn'.seen?_eq]
    exact hfollows.inline_seen? hscalar hsupplies scope

/-- An expression that is never taken apart. -/
theorem of_nodes {e' : Expr} {n n' : Node} (hscalar : value.isScalar = true)
    (hinline : e.inline name value = e') (hn : e.LowersTo registry limit depth n)
    (hn' : e'.LowersTo registry limit depth n') (hfollows : (n.inline name value).Follows false n')
    (hexpandable : e.isExpandable = false) (hexpandable' : e'.isExpandable = false) :
    e.LowersInlined registry limit depth name value := by
  apply of_selected hscalar hinline hn hn' hfollows (hexpandable'.trans hexpandable.symm)
  intro h
  exact absurd (hexpandable.symm.trans h) Bool.false_ne_true

private theorem lowers (h : e.LowersInlined registry limit depth name value) :
    (e.inline name value).Lowers registry limit depth := by
  obtain ⟨-, n', -, hn', -⟩ := h.node
  exact ⟨n', hn'⟩

theorem follow (h : e.LowersInlined registry limit depth name value) {n : Node}
    (hn : e.LowersTo registry limit depth n) :
    ∃ n', (e.inline name value).LowersTo registry limit depth n' ∧
      (n.inline name value).Follows false n' := by
  obtain ⟨m, n', hm, hn', hnodes⟩ := h.node
  obtain rfl := hm.unique hn
  exact ⟨n', hn', hnodes⟩

section

variable (hscalar : value.isScalar = true) {env bound : Environment}
  (hsupplies : env.Supplies name (.ofLiteral value) bound)

include hscalar hsupplies

/-- Binding the parameter gives the value that inlining it gives. -/
theorem value?_eq (h : e.LowersInlined registry limit depth name value) (scope : Scope) :
    (e.inline name value).value? registry limit depth env scope =
      e.value? registry limit depth bound scope := by
  obtain ⟨n, n', hn, hn', hfollows⟩ := h.node
  have hkeeps : Preserved false ((n.inline name value).eval env scope).toOption
      (n'.eval env scope).toOption := hfollows.eval env scope
  rw [Node.inline_eval hscalar hsupplies] at hkeeps
  rw [hn.value?_eq, hn'.value?_eq]
  exact (Preserved.exact_iff.mp hkeeps).symm

private theorem operand (h : e.LowersInlined registry limit depth name value) (scope : Scope)
    (expansion : ArgumentExpansion) :
    Option.Rel Seen.Agrees (e.operand? registry limit depth bound scope expansion)
      ((e.inline name value).operand? registry limit depth env scope expansion) := by
  cases expansion with
  | bareBranching => exact h.selected hsupplies scope
  | never =>
      obtain ⟨n, n', hn, hn', hfollows⟩ := h.node
      show Option.Rel _ (e.seen? registry limit depth bound scope)
        ((e.inline name value).seen? registry limit depth env scope)
      rw [hn.seen?_eq, hn'.seen?_eq]
      exact hfollows.inline_seen? hscalar hsupplies scope

end

/-! ### Expressions made of others -/

section

variable (hscalar : value.isScalar = true)

include hscalar

theorem parameter (other : String) (type : StaticType) :
    (Expr.parameter other type).LowersInlined registry limit depth name value := by
  have hlowered : (Expr.parameter other type).LowersTo registry limit depth (.parameter other) :=
    rfl
  by_cases hname : other = name
  · have hinline : (Expr.parameter other type).inline name value = .constant value := by
      rw [Expr.inline, if_pos hname]
    have hconstant : (Expr.constant value).LowersTo registry limit depth (.constant value) := by
      cases value with
      | queryable entity => cases hscalar
      | _ => rfl
    refine of_nodes hscalar hinline hlowered hconstant ?_ rfl rfl
    rw [Node.inline, if_pos hname]
    exact .refl _
  · have hinline : (Expr.parameter other type).inline name value = .parameter other type := by
      rw [Expr.inline, if_neg hname]
    refine of_nodes hscalar hinline hlowered hlowered ?_ rfl rfl
    rw [Node.inline, if_neg hname]
    exact .refl _

theorem constant (literal : Literal) :
    (Expr.constant literal).LowersInlined registry limit depth name value := by
  have hlowered : ∃ n : Node, (Expr.constant literal).LowersTo registry limit depth n ∧
      n.inline name value = n := by
    cases literal <;> exact ⟨_, rfl, rfl⟩
  obtain ⟨n, hn, hsame⟩ := hlowered
  refine of_nodes hscalar rfl hn hn ?_ rfl rfl
  rw [hsame]
  exact .refl n

theorem source (item : String) (type : StaticType) :
    (Expr.source item type).LowersInlined registry limit depth name value := by
  have hlowered : (Expr.source item type).LowersTo registry limit depth (.ident item) := rfl
  exact of_nodes hscalar rfl hlowered hlowered (.refl _) rfl rfl

theorem unary (h : a.LowersInlined registry limit depth name value) (operator : UnaryOperator)
    (type : StaticType) :
    (Expr.unary operator a type).LowersInlined registry limit depth name value := by
  obtain ⟨n, n', hn, hn', hfollows⟩ := h.node
  refine of_nodes hscalar (by rw [Expr.inline]) (lowersTo_unary.mpr ⟨n, hn, rfl⟩)
    (lowersTo_unary.mpr ⟨n', hn', rfl⟩) ?_ rfl rfl
  rw [Node.inline_unaryNode]
  exact hfollows.unaryNode operator type

theorem binary (ha : a.LowersInlined registry limit depth name value)
    (hb : b.LowersInlined registry limit depth name value) (operator : BinaryOperator) :
    (Expr.binary operator a b).LowersInlined registry limit depth name value := by
  obtain ⟨n, n', hn, hn', hfollows⟩ := ha.node
  obtain ⟨m, m', hm, hm', hfollows'⟩ := hb.node
  refine of_nodes hscalar (by rw [Expr.inline]) (lowersTo_binary.mpr ⟨n, m, hn, hm, rfl⟩)
    (lowersTo_binary.mpr ⟨n', m', hn', hm', rfl⟩) ?_ rfl rfl
  rw [Node.inline_binaryNode hscalar]
  exact hfollows.binaryNode operator hfollows'

theorem member (h : a.LowersInlined registry limit depth name value) (property : String)
    (type : StaticType) :
    (Expr.member a property type).LowersInlined registry limit depth name value := by
  obtain ⟨n, n', hn, hn', hfollows⟩ := h.node
  refine of_nodes hscalar (by rw [Expr.inline]) (lowersTo_member.mpr ⟨n, hn, rfl⟩)
    (lowersTo_member.mpr ⟨n', hn', rfl⟩) ?_ rfl rfl
  rw [Node.inline]
  exact hfollows.dot property

theorem conditional (ht : t.LowersInlined registry limit depth name value)
    (ha : a.LowersInlined registry limit depth name value)
    (hb : b.LowersInlined registry limit depth name value)
    (hdeclares : (Expr.conditional t (some a) (some b)).Declares name value.type)
    (hfit : a.fitsBeside b = true) :
    (Expr.conditional t (some a) (some b)).LowersInlined registry limit depth name value := by
  obtain ⟨nt, nt', hnt, hnt', hfollows⟩ := ht.node
  obtain ⟨na, na', hna, hna', hfollows'⟩ := ha.node
  obtain ⟨nb, nb', hnb, hnb', hfollows''⟩ := hb.node
  have hinline : (Expr.conditional t (some a) (some b)).inline name value =
      .conditional (t.inline name value) (some (a.inline name value))
        (some (b.inline name value)) := by
    rw [Expr.inline, inlineOption, inlineOption]
  have hfit' : (a.inline name value).fitsBeside (b.inline name value) = true := by
    rw [inline_fitsBeside hscalar (hdeclares.operand (by simp [operands]))
      (hdeclares.operand (by simp [operands]))]
    exact hfit
  have hn := lowersTo_conditional.mpr ⟨a, b, rfl, rfl, hfit, nt, na, nb, hnt, hna, hnb, rfl⟩
  have hn' := lowersTo_conditional.mpr
    ⟨_, _, rfl, rfl, hfit', nt', na', nb', hnt', hna', hnb', rfl⟩
  have hnodes : ((Node.ifThenElse nt na nb).inline name value).Follows false
      (Node.ifThenElse nt' na' nb') := by
    rw [Node.inline_ifThenElse]
    exact hfollows.ifThenElse hfollows' hfollows''
  have hexpandable := inline_isExpandable hdeclares
  rw [hinline] at hexpandable
  refine of_selected hscalar hinline hn hn' hnodes hexpandable fun h h' _ _ hsupplies scope => ?_
  rw [selected?_conditional h, selected?_conditional h']
  apply rel_bind (ht.value?_eq hscalar hsupplies scope)
  intro v
  cases v.isTrue with
  | true => exact ha.selected hsupplies scope
  | false => exact hb.selected hsupplies scope

theorem coalesce (ha : a.LowersInlined registry limit depth name value)
    (hb : b.LowersInlined registry limit depth name value)
    (hdeclares : (Expr.coalesce (some a) (some b)).Declares name value.type)
    (hfit : a.fitsBeside b = true) :
    (Expr.coalesce (some a) (some b)).LowersInlined registry limit depth name value := by
  obtain ⟨na, na', hna, hna', hfollows⟩ := ha.node
  obtain ⟨nb, nb', hnb, hnb', hfollows'⟩ := hb.node
  have hinline : (Expr.coalesce (some a) (some b)).inline name value =
      .coalesce (some (a.inline name value)) (some (b.inline name value)) := by
    rw [Expr.inline, inlineOption, inlineOption]
  have hfit' : (a.inline name value).fitsBeside (b.inline name value) = true := by
    rw [inline_fitsBeside hscalar (hdeclares.operand (by simp [operands]))
      (hdeclares.operand (by simp [operands]))]
    exact hfit
  have hn := lowersTo_coalesce.mpr ⟨a, b, rfl, rfl, hfit, na, nb, hna, hnb, rfl⟩
  have hn' := lowersTo_coalesce.mpr ⟨_, _, rfl, rfl, hfit', na', nb', hna', hnb', rfl⟩
  have hnodes : ((Node.coalesce na nb).inline name value).Follows false
      (Node.coalesce na' nb') := by
    rw [Node.inline]
    exact hfollows.coalesce hfollows'
  have hexpandable := inline_isExpandable hdeclares
  rw [hinline] at hexpandable
  refine of_selected hscalar hinline hn hn' hnodes hexpandable fun h h' _ _ hsupplies scope => ?_
  rw [selected?_coalesce h, selected?_coalesce h']
  apply rel_bind (ha.value?_eq hscalar hsupplies scope)
  intro v
  cases v.isNull with
  | true => exact hb.selected hsupplies scope
  | false => exact ha.selected hsupplies scope

/-- A call has the same meaning with a literal for an operand and with its
value. -/
theorem call (hplain : registry.IsPlain) {method : MethodSignature} {target : Option Expr}
    {arguments : List Expr} {type : StaticType}
    (hlowers : (Expr.call method target arguments type).Lowers registry limit depth)
    (h : ∀ e ∈ target.toList ++ arguments, e.LowersInlined registry limit depth name value) :
    (Expr.call method target arguments type).LowersInlined registry limit depth name value := by
  obtain ⟨handler, hlookup, hoperands, hemits⟩ := lowers_of_call hlowers
  have hhandler := hplain method handler hlookup
  have haccepts := hemits.accepts hhandler
  have hmap : (target.map (Expr.inline name value)).toList ++
      arguments.map (Expr.inline name value) =
        (target.toList ++ arguments).map (Expr.inline name value) := by
    rw [List.map_append, Option.toList_map]
  have hoperands' : ∀ e' ∈ (target.map (Expr.inline name value)).toList ++
      arguments.map (Expr.inline name value), e'.Lowers registry limit depth := by
    rw [hmap, List.forall_mem_map]
    exact fun e he => (h e he).lowers
  have haccepts' : handler.generator.Accepts ((target.map (Expr.inline name value)).toList ++
      arguments.map (Expr.inline name value)).length := by
    rw [hmap, List.length_map]
    exact haccepts
  have hinline : (Expr.call method target arguments type).inline name value =
      .call method (target.map (Expr.inline name value))
        (arguments.map (Expr.inline name value)) type := by
    rw [Expr.inline, inlineOption_eq, inlineList_eq]
  obtain ⟨n, hn, hconstant, hvalue⟩ := call_yields type hplain hlookup hoperands haccepts
  obtain ⟨n', hn', hconstant', hvalue'⟩ := call_yields type hplain hlookup hoperands' haccepts'
  -- the node of a call is no parameter, so inlining does not make a constant of it
  have hnode : n ≠ .parameter name :=
    call_lowered (P := fun n => n ≠ .parameter name) (by simp [Node.ifThenElse]) hlookup
      (fun site n hemit => Generator.emit_ne_parameter hhandler hemit name) hn
  have hconstantInline : (n.inline name value).constant? = n.constant? := by
    rcases Node.inline_constant?_cases name value n with ⟨hparameter, -⟩ | hsame
    · exact absurd hparameter hnode
    · exact hsame
  refine of_nodes hscalar hinline hn hn' ⟨?_, fun env scope => ?_⟩ rfl rfl
  · rw [hconstantInline, hconstant, hconstant']
  · have hsupplies := env.supplies_cons name (.ofLiteral value)
    unfold Keeps
    rw [Node.inline_eval hscalar hsupplies, hvalue, hvalue', hmap]
    refine .of_eq ?_
    beta_reduce
    rw [List.mapM_map]
    have hagree := rel_mapM fun e he => (h e he).operand hscalar hsupplies scope handler.expansion
    exact bind_eq_of_rel hagree fun _ _ hagree => (handler.generator.meaning_agrees hagree).symm

end

end Expr.LowersInlined

end ObjectQuery
