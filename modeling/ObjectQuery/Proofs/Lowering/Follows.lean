import ObjectQuery.Proofs.Expansion.Clauses
import ObjectQuery.Proofs.Lowering.Calls
import ObjectQuery.Proofs.Lowering.Operators
import ObjectQuery.Proofs.StaticType

/-!
# Expressions that lower to what follows

An expression follows another one if it can be lowered wherever the other one
can, to a node that follows the other's, and if it can stand wherever the other
one stands: it has the same type or one that says less, and where a call is
distributed over it, it selects what the other one selects.

Whether it can be lowered depends on the depth at which it stands, so both
expressions come with a depth. Replacing subqueries by expressions that follow
them makes an expression that follows the old one, and doing so in all clauses
of a model makes a model whose query follows the query of the old one.

## Main results

* `Expr.Replaced.follows` — an expression with its subqueries replaced.
* `QueryModel.Related.lowersTo` — a model with its clauses replaced.
* `Expr.follows_of_le` — an expression that stands less deep.
-/

namespace ObjectQuery

open Hql (Node Query Aggregate)

/-- The second expression, at its depth, can take the place of the first one
at the depth of that. -/
structure Expr.Follows (registry : Registry) (limit : Nat) (lax : Bool) (depth depth' : Nat)
    (e e' : Expr) : Prop where
  isNullConstant_eq : e'.isNullConstant = e.isNullConstant
  type : e.type.Loosens lax e'.type
  node : ∃ n n', e.LowersTo registry limit depth n ∧ e'.LowersTo registry limit depth' n' ∧
    n.Follows lax n'
  selected : ∀ env scope, Preserved lax (e.selected? registry limit depth env scope)
    (e'.selected? registry limit depth' env scope)

variable {registry : Registry} {limit : Nat} {lax : Bool} {depth depth' depth'' : Nat}

namespace Expr

private theorem isExpandable_eq_of_type {e e' : Expr} (h : e.type.Loosens lax e'.type)
    (hbranching : e'.isBranching = e.isBranching) : e'.isExpandable = e.isExpandable := by
  unfold isExpandable
  rw [hbranching, h.isRowOrCollection_eq]

namespace Follows

variable {e e' e'' a a' b b' t t' : Expr}

/-- Where neither expression is taken apart, the nodes decide. -/
theorem of_nodes {n n' : Node} (hnull : e'.isNullConstant = e.isNullConstant)
    (htype : e.type.Loosens lax e'.type) (hn : e.LowersTo registry limit depth n)
    (hn' : e'.LowersTo registry limit depth' n') (hfollows : n.Follows lax n')
    (hexpandable : e.isExpandable = false) (hexpandable' : e'.isExpandable = false) :
    e.Follows registry limit lax depth depth' e' := by
  refine ⟨hnull, htype, ⟨n, n', hn, hn', hfollows⟩, fun env scope => ?_⟩
  rw [selected?_of_not_isExpandable hexpandable, selected?_of_not_isExpandable hexpandable',
    hn.seen?_eq, hn'.seen?_eq]
  exact hfollows.seen? env scope

theorem refl (h : e.Lowers registry limit depth) :
    e.Follows registry limit lax depth depth e := by
  obtain ⟨n, hn⟩ := h
  exact ⟨rfl, .refl _, ⟨n, n, hn, hn, .refl n⟩, fun _ _ => .refl _⟩

theorem trans (h : e.Follows registry limit lax depth depth' e')
    (h' : e'.Follows registry limit lax depth' depth'' e'') :
    e.Follows registry limit lax depth depth'' e'' := by
  obtain ⟨n, m, hn, hm, hnm⟩ := h.node
  obtain ⟨m', k, hm', hk, hmk⟩ := h'.node
  obtain rfl := hm.unique hm'
  exact ⟨h'.isNullConstant_eq.trans h.isNullConstant_eq, h.type.trans h'.type,
    ⟨n, k, hn, hk, hnm.trans hmk⟩,
    fun env scope => (h.selected env scope).trans (h'.selected env scope)⟩

private theorem value (h : e.Follows registry limit lax depth depth' e') (env : Environment)
    (scope : Scope) :
    Preserved lax (e.value? registry limit depth env scope)
      (e'.value? registry limit depth' env scope) := by
  obtain ⟨n, n', hn, hn', hfollows⟩ := h.node
  rw [hn.value?_eq, hn'.value?_eq]
  exact hfollows.eval env scope

private theorem operand (h : e.Follows registry limit lax depth depth' e') (env : Environment)
    (scope : Scope) (expansion : ArgumentExpansion) :
    Preserved lax (e.operand? registry limit depth env scope expansion)
      (e'.operand? registry limit depth' env scope expansion) := by
  cases expansion with
  | bareBranching => exact h.selected env scope
  | never =>
      obtain ⟨n, n', hn, hn', hfollows⟩ := h.node
      show Preserved lax (e.seen? registry limit depth env scope) (e'.seen? _ _ _ env scope)
      rw [hn.seen?_eq, hn'.seen?_eq]
      exact hfollows.seen? env scope

private theorem lowers (h : e.Follows registry limit lax depth depth' e') :
    e'.Lowers registry limit depth' := by
  obtain ⟨-, n', -, hn', -⟩ := h.node
  exact ⟨n', hn'⟩

/-- Branches that fit still do. -/
theorem fitsBeside (ha : a.Follows registry limit lax depth depth' a')
    (hb : b.Follows registry limit lax depth depth' b') (h : a.fitsBeside b = true) :
    a'.fitsBeside b' = true := by
  unfold Expr.fitsBeside at h ⊢
  rw [ha.isNullConstant_eq, hb.isNullConstant_eq]
  rcases Bool.or_eq_true_iff.mp h with hnull | hcompatible
  · rw [hnull, Bool.true_or]
  · rw [ha.type.isCompatible hb.type hcompatible, Bool.or_true]

/-! ### Expressions made of others -/

private theorem unary (h : a.Follows registry limit lax depth depth' a') (operator : UnaryOperator)
    (type : StaticType) :
    (Expr.unary operator a type).Follows registry limit lax depth depth'
      (Expr.unary operator a' type) := by
  obtain ⟨n, n', hn, hn', hfollows⟩ := h.node
  refine of_nodes rfl ?_ (lowersTo_unary.mpr ⟨n, hn, rfl⟩) (lowersTo_unary.mpr ⟨n', hn', rfl⟩)
    (hfollows.unaryNode operator type) rfl rfl
  cases operator with
  | negate => exact h.type
  | _ => exact .refl _

private theorem binary (ha : a.Follows registry limit lax depth depth' a')
    (hb : b.Follows registry limit lax depth depth' b') (operator : BinaryOperator) :
    (Expr.binary operator a b).Follows registry limit lax depth depth'
      (Expr.binary operator a' b') := by
  obtain ⟨n, n', hn, hn', hfollows⟩ := ha.node
  obtain ⟨m, m', hm, hm', hfollows'⟩ := hb.node
  refine of_nodes rfl ?_ (lowersTo_binary.mpr ⟨n, m, hn, hm, rfl⟩)
    (lowersTo_binary.mpr ⟨n', m', hn', hm', rfl⟩) (hfollows.binaryNode operator hfollows') rfl rfl
  rw [Expr.type, Expr.type]
  cases operator.isArithmetic with
  | true => exact ha.type
  | false => exact .refl _

private theorem member (h : a.Follows registry limit lax depth depth' a') (name : String)
    (type : StaticType) :
    (Expr.member a name type).Follows registry limit lax depth depth'
      (Expr.member a' name type) := by
  obtain ⟨n, n', hn, hn', hfollows⟩ := h.node
  exact of_nodes rfl (.refl _) (lowersTo_member.mpr ⟨n, hn, rfl⟩)
    (lowersTo_member.mpr ⟨n', hn', rfl⟩) (hfollows.dot name) rfl rfl

private theorem conditional (ht : t.Follows registry limit lax depth depth' t')
    (ha : a.Follows registry limit lax depth depth' a')
    (hb : b.Follows registry limit lax depth depth' b') (hfit : a.fitsBeside b = true) :
    (Expr.conditional t (some a) (some b)).Follows registry limit lax depth depth'
      (Expr.conditional t' (some a') (some b')) := by
  obtain ⟨nt, nt', hnt, hnt', hfollows⟩ := ht.node
  obtain ⟨na, na', hna, hna', hfollows'⟩ := ha.node
  obtain ⟨nb, nb', hnb, hnb', hfollows''⟩ := hb.node
  have htype : (Expr.conditional t (some a) (some b)).type.Loosens lax
      (Expr.conditional t' (some a') (some b')).type := by
    rw [Expr.type, Expr.type]
    exact ha.type
  have hexpandable := isExpandable_eq_of_type htype rfl
  have hn := lowersTo_conditional.mpr
    ⟨a, b, rfl, rfl, hfit, nt, na, nb, hnt, hna, hnb, rfl⟩
  have hn' := lowersTo_conditional.mpr
    ⟨a', b', rfl, rfl, ha.fitsBeside hb hfit, nt', na', nb', hnt', hna', hnb', rfl⟩
  have hnodes := hfollows.ifThenElse hfollows' hfollows''
  by_cases h : (Expr.conditional t (some a) (some b)).isExpandable = true
  · refine ⟨rfl, htype, ⟨_, _, hn, hn', hnodes⟩, fun env scope => ?_⟩
    rw [selected?_conditional h, selected?_conditional (hexpandable.trans h)]
    refine (ht.value env scope).bind fun v => ?_
    cases v.isTrue with
    | true => exact ha.selected env scope
    | false => exact hb.selected env scope
  · rw [Bool.not_eq_true] at h
    exact of_nodes rfl htype hn hn' hnodes h (hexpandable.trans h)

private theorem coalesce (ha : a.Follows registry limit lax depth depth' a')
    (hb : b.Follows registry limit lax depth depth' b') (hfit : a.fitsBeside b = true) :
    (Expr.coalesce (some a) (some b)).Follows registry limit lax depth depth'
      (Expr.coalesce (some a') (some b')) := by
  obtain ⟨na, na', hna, hna', hfollows⟩ := ha.node
  obtain ⟨nb, nb', hnb, hnb', hfollows'⟩ := hb.node
  have htype : (Expr.coalesce (some a) (some b)).type.Loosens lax
      (Expr.coalesce (some a') (some b')).type := by
    rw [Expr.type, Expr.type]
    exact ha.type.nonNull
  have hexpandable := isExpandable_eq_of_type htype rfl
  have hn := lowersTo_coalesce.mpr ⟨a, b, rfl, rfl, hfit, na, nb, hna, hnb, rfl⟩
  have hn' := lowersTo_coalesce.mpr
    ⟨a', b', rfl, rfl, ha.fitsBeside hb hfit, na', nb', hna', hnb', rfl⟩
  have hnodes := hfollows.coalesce hfollows'
  by_cases h : (Expr.coalesce (some a) (some b)).isExpandable = true
  · refine ⟨rfl, htype, ⟨_, _, hn, hn', hnodes⟩, fun env scope => ?_⟩
    rw [selected?_coalesce h, selected?_coalesce (hexpandable.trans h)]
    refine (ha.value env scope).bind fun v => ?_
    cases v.isNull with
    | true => exact hb.selected env scope
    | false => exact ha.selected env scope
  · rw [Bool.not_eq_true] at h
    exact of_nodes rfl htype hn hn' hnodes h (hexpandable.trans h)

private theorem call (hplain : registry.IsPlain) {method : MethodSignature}
    {target target' : Option Expr}
    {arguments arguments' : List Expr} {type : StaticType}
    (hlowers : (Expr.call method target arguments type).Lowers registry limit depth)
    (h : List.Forall₂ (Expr.Follows registry limit lax depth depth')
      (target.toList ++ arguments) (target'.toList ++ arguments')) :
    (Expr.call method target arguments type).Follows registry limit lax depth depth'
      (Expr.call method target' arguments' type) := by
  obtain ⟨handler, hlookup, hoperands, hemits⟩ := lowers_of_call hlowers
  have haccepts := hemits.accepts (hplain method handler hlookup)
  have hoperands' : ∀ e' ∈ target'.toList ++ arguments', e'.Lowers registry limit depth' := by
    intro e' he'
    obtain ⟨e, -, hfollows⟩ := exists_left_of_forall₂ h he'
    exact hfollows.lowers
  have haccepts' := haccepts
  rw [h.length_eq] at haccepts'
  obtain ⟨n, hn, hconstant, hvalue⟩ := call_yields type hplain hlookup hoperands haccepts
  obtain ⟨n', hn', hconstant', hvalue'⟩ := call_yields type hplain hlookup hoperands' haccepts'
  refine of_nodes rfl (.refl _) hn hn' ⟨hconstant.trans hconstant'.symm, fun env scope => ?_⟩
    rfl rfl
  unfold Keeps
  rw [hvalue, hvalue']
  refine Preserved.bind_right (Preserved.mapM₂ (forall₂_mono h fun e _ e' hfollows => ?_)) _
  exact hfollows.operand env scope handler.expansion

end Follows

/-! ### Subqueries replaced -/

/-- Where every subquery is replaced by what follows it, so is the whole
expression. -/
theorem Replaced.follows (hplain : registry.IsPlain) {P : QueryModel → Expr → Prop}
    {e e' : Expr} (h : e.Replaced P e') (hlowers : e.Lowers registry limit depth)
    (hsubqueries : ∀ model result, e.Holds model → P model result →
      (Expr.subquery model).Follows registry limit lax depth depth' result) :
    e.Follows registry limit lax depth depth' e' := by
  induction e using Expr.inductionOnOperands generalizing e' with
  | step e ih =>
      have hoperands : ∀ {a a' : Expr}, a ∈ e.operands → a.Replaced P a' →
          a.Follows registry limit lax depth depth' a' := fun ha hreplaced =>
        ih _ ha hreplaced (hlowers.operands ha) fun model result hmodel =>
          hsubqueries model result (holds_iff_operands.mpr (.inr ⟨_, ha, hmodel⟩))
      cases h with
      | constant value =>
          obtain ⟨n, hn⟩ := hlowers
          cases value <;> exact .of_nodes rfl (.refl _) hn hn (.refl n) rfl rfl
      | parameter name type =>
          obtain ⟨n, hn⟩ := hlowers
          exact .of_nodes rfl (.refl _) hn hn (.refl n) rfl rfl
      | source name type =>
          obtain ⟨n, hn⟩ := hlowers
          exact .of_nodes rfl (.refl _) hn hn (.refl n) rfl rfl
      | subquery hresult => exact hsubqueries _ _ (by simp) hresult
      | unary hoperand => exact (hoperands (by simp [operands]) hoperand).unary _ _
      | binary hleft hright =>
          exact (hoperands (by simp [operands]) hleft).binary
            (hoperands (by simp [operands]) hright) _
      | member htarget => exact (hoperands (by simp [operands]) htarget).member _ _
      | @call method target target' arguments arguments' type htarget harguments =>
          refine .call hplain hlowers ?_
          have hall : List.Forall₂ (Replaced P) (target.toList ++ arguments)
              (target'.toList ++ arguments') := by
            cases htarget with
            | none => exact harguments
            | some htarget => exact .cons htarget harguments
          exact forall₂_mono hall fun a ha a' hreplaced => hoperands ha hreplaced
      | conditional htest ha hb =>
          obtain ⟨n, hn⟩ := hlowers
          obtain ⟨_, _, ⟨⟩, ⟨⟩, hfit, -⟩ := lowersTo_conditional.mp hn
          exact (hoperands (by simp [operands]) htest).conditional
            (hoperands (by simp [operands]) ha) (hoperands (by simp [operands]) hb) hfit
      | coalesce ha hb =>
          obtain ⟨n, hn⟩ := hlowers
          obtain ⟨_, _, ⟨⟩, ⟨⟩, hfit, -⟩ := lowersTo_coalesce.mp hn
          exact (hoperands (by simp [operands]) ha).coalesce
            (hoperands (by simp [operands]) hb) hfit

end Expr

end ObjectQuery
