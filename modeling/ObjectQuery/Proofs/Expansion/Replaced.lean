import ObjectQuery.Expansion.Basic
import ObjectQuery.Proofs.Expr.Walk
import ObjectQuery.Proofs.Success

/-!
# Expressions with their subqueries replaced

The expansion of a model goes through its clause expressions, checks every
branching node and replaces every subquery. `Expr.Replaced` relates an
expression to what comes out, given what may stand in place of a subquery.
The relation serves both notions of success, so that the question whether an
expression can be expanded and the question whether it is left alone have
one answer.

## Main results

* `rebuild_reaches_iff` — the walk succeeds exactly on sound expressions,
  with what the relation allows.
* `Expr.rebuild_eq_pure_iff` — an expression is left alone exactly if it is
  sound and each of its subqueries is left alone.
-/

namespace ObjectQuery

open Traced (Success)

/-! ## Subqueries replaced -/

/-- The second expression is the first one with every subquery replaced by an
expression that `P` relates to its model. -/
inductive Expr.Replaced (P : QueryModel → Expr → Prop) : Expr → Expr → Prop
  | constant (value) : Replaced P (.constant value) (.constant value)
  | parameter (name type) : Replaced P (.parameter name type) (.parameter name type)
  | source (name type) : Replaced P (.source name type) (.source name type)
  | subquery {model result} : P model result → Replaced P (.subquery model) result
  | unary {operator operand operand' type} : Replaced P operand operand' →
    Replaced P (.unary operator operand type) (.unary operator operand' type)
  | binary {operator left left' right right'} : Replaced P left left' →
    Replaced P right right' →
    Replaced P (.binary operator left right) (.binary operator left' right')
  | member {target target' name type} : Replaced P target target' →
    Replaced P (.member target name type) (.member target' name type)
  | call {method target target' arguments arguments' type} :
    Option.Rel (Replaced P) target target' →
    List.Forall₂ (Replaced P) arguments arguments' →
    Replaced P (.call method target arguments type) (.call method target' arguments' type)
  | conditional {test test' a a' b b'} : Replaced P test test' → Replaced P a a' →
    Replaced P b b' →
    Replaced P (.conditional test (some a) (some b)) (.conditional test' (some a') (some b'))
  | coalesce {a a' b b'} : Replaced P a a' → Replaced P b b' →
    Replaced P (.coalesce (some a) (some b)) (.coalesce (some a') (some b'))

section

variable {s : Success ExpansionEvent ExpansionError} {replace : QueryModel → Expansion Expr}

theorem ofModel_reaches_iff {α : Type} {x : Except ModelError α} {a : α} :
    s.Reaches (Expansion.ofModel x) a ↔ x = .ok a := by
  rw [Expansion.ofModel, s.ofExcept_iff, mapError_eq_ok_iff]

private theorem check_reaches_iff {check : Except ModelError Unit} {u : Unit} :
    s.Reaches (Expansion.ofModel check) u ↔ check = .ok () :=
  ofModel_reaches_iff

private theorem rebuildOption_reaches_iff {o o' : Option Expr} {P : QueryModel → Expr → Prop}
    (h : ∀ e, o = some e → ∀ {e' : Expr},
      s.Reaches (e.rebuild (Expansion.rebuilder replace)) e' ↔ e.IsSound ∧ e.Replaced P e') :
    s.Reaches (rebuildOption (Expansion.rebuilder replace) o) o' ↔
      (∀ e, o = some e → e.IsSound) ∧ Option.Rel (Expr.Replaced P) o o' := by
  cases o with
  | none =>
      rw [rebuildOption, s.pure_iff]
      constructor
      · rintro rfl
        exact ⟨by simp, .none⟩
      · rintro ⟨-, hrel⟩
        cases hrel
        rfl
  | some e =>
      simp only [rebuildOption, s.bind_iff, s.pure_iff, h e rfl]
      constructor
      · rintro ⟨e', ⟨hsound, hreplaced⟩, rfl⟩
        refine ⟨?_, .some hreplaced⟩
        intro other hother
        obtain rfl := Option.some.inj hother
        exact hsound
      · rintro ⟨hsound, hrel⟩
        cases hrel with
        | some hreplaced => exact ⟨_, ⟨hsound e rfl, hreplaced⟩, rfl⟩

private theorem rebuildList_reaches_iff {es es' : List Expr} {P : QueryModel → Expr → Prop}
    (h : ∀ e ∈ es, ∀ {e' : Expr},
      s.Reaches (e.rebuild (Expansion.rebuilder replace)) e' ↔ e.IsSound ∧ e.Replaced P e') :
    s.Reaches (rebuildList (Expansion.rebuilder replace) es) es' ↔
      (∀ e ∈ es, e.IsSound) ∧ List.Forall₂ (Expr.Replaced P) es es' := by
  induction es generalizing es' with
  | nil =>
      rw [rebuildList, s.pure_iff, List.forall₂_nil_left_iff, eq_comm]
      simp
  | cons e rest ih =>
      have hhead := fun {e' : Expr} => @h e (by simp) e'
      simp only [rebuildList, s.bind_iff, s.pure_iff, hhead,
        ih fun e' he' => h e' (List.mem_cons_of_mem _ he'), List.forall₂_cons_left_iff, List.forall_mem_cons]
      constructor
      · rintro ⟨e', ⟨hsound, hreplaced⟩, rest', ⟨hsounds, hreplaceds⟩, rfl⟩
        exact ⟨⟨hsound, hsounds⟩, e', rest', hreplaced, hreplaceds, rfl⟩
      · rintro ⟨⟨hsound, hsounds⟩, e', rest', hreplaced, hreplaceds, rfl⟩
        exact ⟨e', ⟨hsound, hreplaced⟩, rest', ⟨hsounds, hreplaceds⟩, rfl⟩

/-- The walk through a clause expression succeeds exactly on sound
expressions, with every subquery replaced. -/
theorem rebuild_reaches_iff {e e' : Expr} :
    s.Reaches (e.rebuild (Expansion.rebuilder replace)) e' ↔
      e.IsSound ∧ e.Replaced (fun model result => s.Reaches (replace model) result) e' := by
  induction e using Expr.operandInduction generalizing e' with
  | constant value =>
      show s.Reaches (pure (.constant value)) e' ↔ _
      rw [s.pure_iff]
      constructor
      · rintro rfl
        exact ⟨by simp, .constant value⟩
      · rintro ⟨-, hreplaced⟩
        cases hreplaced
        rfl
  | parameter name type =>
      show s.Reaches (pure (.parameter name type)) e' ↔ _
      rw [s.pure_iff]
      constructor
      · rintro rfl
        exact ⟨by simp, .parameter name type⟩
      · rintro ⟨-, hreplaced⟩
        cases hreplaced
        rfl
  | source name type =>
      show s.Reaches (pure (.source name type)) e' ↔ _
      rw [s.pure_iff]
      constructor
      · rintro rfl
        exact ⟨by simp, .source name type⟩
      · rintro ⟨-, hreplaced⟩
        cases hreplaced
        rfl
  | subquery model =>
      show s.Reaches (replace model) e' ↔ _
      constructor
      · intro h
        exact ⟨by simp, .subquery h⟩
      · rintro ⟨-, hreplaced⟩
        cases hreplaced with
        | subquery h => exact h
  | unary operator operand type ih =>
      simp only [Expr.rebuild, s.bind_iff, s.pure_iff, ih, Expr.isSound_unary]
      constructor
      · rintro ⟨operand', ⟨hsound, hreplaced⟩, rfl⟩
        exact ⟨hsound, .unary hreplaced⟩
      · rintro ⟨hsound, hreplaced⟩
        cases hreplaced with
        | unary hreplaced => exact ⟨_, ⟨hsound, hreplaced⟩, rfl⟩
  | binary operator left right ihLeft ihRight =>
      simp only [Expr.rebuild, s.bind_iff, s.pure_iff, ihLeft, ihRight, Expr.isSound_binary]
      constructor
      · rintro ⟨left', ⟨hleft, hreplacedLeft⟩, right', ⟨hright, hreplacedRight⟩, rfl⟩
        exact ⟨⟨hleft, hright⟩, .binary hreplacedLeft hreplacedRight⟩
      · rintro ⟨⟨hleft, hright⟩, hreplaced⟩
        cases hreplaced with
        | binary hreplacedLeft hreplacedRight =>
            exact ⟨_, ⟨hleft, hreplacedLeft⟩, _, ⟨hright, hreplacedRight⟩, rfl⟩
  | member target name type ih =>
      simp only [Expr.rebuild, s.bind_iff, s.pure_iff, ih, Expr.isSound_member]
      constructor
      · rintro ⟨target', ⟨hsound, hreplaced⟩, rfl⟩
        exact ⟨hsound, .member hreplaced⟩
      · rintro ⟨hsound, hreplaced⟩
        cases hreplaced with
        | member hreplaced => exact ⟨_, ⟨hsound, hreplaced⟩, rfl⟩
  | call method target arguments type ihTarget ihArguments =>
      have htarget := fun {o' : Option Expr} => @rebuildOption_reaches_iff s replace target o' _
        ihTarget
      have harguments := fun {es' : List Expr} => @rebuildList_reaches_iff s replace arguments
        es' _ ihArguments
      simp only [Expr.rebuild, Expansion.rebuilder, s.bind_iff, s.pure_iff,
        check_reaches_iff, Expr.isSound_call]
      constructor
      · rintro ⟨_, -, target', hrunTarget, arguments', hrunArguments, rfl⟩
        obtain ⟨hsoundTarget, hrelTarget⟩ := htarget.mp hrunTarget
        obtain ⟨hsoundArguments, hrelArguments⟩ := harguments.mp hrunArguments
        exact ⟨⟨hsoundTarget, hsoundArguments⟩, .call hrelTarget hrelArguments⟩
      · rintro ⟨⟨hsoundTarget, hsoundArguments⟩, hreplaced⟩
        cases hreplaced with
        | call hrelTarget hrelArguments =>
            exact ⟨(), rfl, _, htarget.mpr ⟨hsoundTarget, hrelTarget⟩, _,
              harguments.mpr ⟨hsoundArguments, hrelArguments⟩, rfl⟩
  | conditional test whenTrue whenFalse ihTest ihTrue ihFalse =>
      simp only [Expr.rebuild, Expansion.rebuilder, s.bind_iff, s.pure_iff,
        check_reaches_iff, Expr.isSound_conditional, Expr.checkBranches_conditional_iff]
      constructor
      · rintro ⟨_, ⟨a, b, rfl, rfl, hfit⟩, test', hrunTest, a', hrunTrue, b', hrunFalse, rfl⟩
        obtain ⟨htest, hreplacedTest⟩ := ihTest.mp hrunTest
        obtain ⟨ha, hreplacedTrue⟩ := (ihTrue a rfl).mp hrunTrue
        obtain ⟨hb, hreplacedFalse⟩ := (ihFalse b rfl).mp hrunFalse
        exact ⟨⟨htest, a, b, rfl, rfl, hfit, ha, hb⟩,
          .conditional hreplacedTest hreplacedTrue hreplacedFalse⟩
      · rintro ⟨⟨htest, a, b, rfl, rfl, hfit, ha, hb⟩, hreplaced⟩
        cases hreplaced with
        | conditional hreplacedTest hreplacedTrue hreplacedFalse =>
            exact ⟨(), ⟨a, b, rfl, rfl, hfit⟩, _, ihTest.mpr ⟨htest, hreplacedTest⟩, _,
              (ihTrue a rfl).mpr ⟨ha, hreplacedTrue⟩, _,
              (ihFalse b rfl).mpr ⟨hb, hreplacedFalse⟩, rfl⟩
  | coalesce left right ihLeft ihRight =>
      simp only [Expr.rebuild, Expansion.rebuilder, s.bind_iff, s.pure_iff,
        check_reaches_iff, Expr.isSound_coalesce, Expr.checkBranches_coalesce_iff]
      constructor
      · rintro ⟨_, ⟨a, b, rfl, rfl, hfit⟩, a', hrunLeft, b', hrunRight, rfl⟩
        obtain ⟨ha, hreplacedLeft⟩ := (ihLeft a rfl).mp hrunLeft
        obtain ⟨hb, hreplacedRight⟩ := (ihRight b rfl).mp hrunRight
        exact ⟨⟨a, b, rfl, rfl, hfit, ha, hb⟩, .coalesce hreplacedLeft hreplacedRight⟩
      · rintro ⟨⟨a, b, rfl, rfl, hfit, ha, hb⟩, hreplaced⟩
        cases hreplaced with
        | coalesce hreplacedLeft hreplacedRight =>
            exact ⟨(), ⟨a, b, rfl, rfl, hfit⟩, _, (ihLeft a rfl).mpr ⟨ha, hreplacedLeft⟩, _,
              (ihRight b rfl).mpr ⟨hb, hreplacedRight⟩, rfl⟩

end

/-! ## What the relation says of the subqueries -/

namespace Expr.Replaced

variable {P : QueryModel → Expr → Prop} {e e' : Expr}

/-- Where something can stand in place of each subquery, the expression can
be replaced. -/
theorem exists_of_isSound (hsound : e.IsSound)
    (h : ∀ model, e.Holds model → ∃ result, P model result) : ∃ e', e.Replaced P e' := by
  induction e using Expr.operandInduction with
  | constant value => exact ⟨_, .constant value⟩
  | parameter name type => exact ⟨_, .parameter name type⟩
  | source name type => exact ⟨_, .source name type⟩
  | subquery model =>
      obtain ⟨result, hresult⟩ := h model (by simp)
      exact ⟨result, .subquery hresult⟩
  | unary operator operand type ih =>
      obtain ⟨operand', hreplaced⟩ := ih hsound h
      exact ⟨_, .unary hreplaced⟩
  | binary operator left right ihLeft ihRight =>
      obtain ⟨hleft, hright⟩ := isSound_binary.mp hsound
      obtain ⟨left', hreplacedLeft⟩ := ihLeft hleft fun model hmodel => h model (by simp [hmodel])
      obtain ⟨right', hreplacedRight⟩ := ihRight hright fun model hmodel =>
        h model (by simp [hmodel])
      exact ⟨_, .binary hreplacedLeft hreplacedRight⟩
  | member target name type ih =>
      obtain ⟨target', hreplaced⟩ := ih hsound h
      exact ⟨_, .member hreplaced⟩
  | call method target arguments type ihTarget ihArguments =>
      obtain ⟨hsoundTarget, hsoundArguments⟩ := isSound_call.mp hsound
      have htarget : ∃ target', Option.Rel (Replaced P) target target' := by
        cases target with
        | none => exact ⟨none, .none⟩
        | some e =>
            obtain ⟨e', he'⟩ := ihTarget e rfl (hsoundTarget e rfl) fun model hmodel =>
              h model (by simp [hmodel])
            exact ⟨some e', .some he'⟩
      have harguments : ∃ arguments', List.Forall₂ (Replaced P) arguments arguments' := by
        refine exists_forall₂ fun e he => ?_
        exact ihArguments e he (hsoundArguments e he) fun model hmodel =>
          h model (holds_call.mpr (.inr ⟨e, he, hmodel⟩))
      obtain ⟨target', hreplacedTarget⟩ := htarget
      obtain ⟨arguments', hreplacedArguments⟩ := harguments
      exact ⟨_, .call hreplacedTarget hreplacedArguments⟩
  | conditional test whenTrue whenFalse ihTest ihTrue ihFalse =>
      obtain ⟨htest, a, b, rfl, rfl, -, ha, hb⟩ := isSound_conditional.mp hsound
      obtain ⟨test', hreplacedTest⟩ := ihTest htest fun model hmodel => h model (by simp [hmodel])
      obtain ⟨a', hreplacedTrue⟩ := ihTrue a rfl ha fun model hmodel => h model (by simp [hmodel])
      obtain ⟨b', hreplacedFalse⟩ := ihFalse b rfl hb fun model hmodel =>
        h model (by simp [hmodel])
      exact ⟨_, .conditional hreplacedTest hreplacedTrue hreplacedFalse⟩
  | coalesce left right ihLeft ihRight =>
      obtain ⟨a, b, rfl, rfl, -, ha, hb⟩ := isSound_coalesce.mp hsound
      obtain ⟨a', hreplacedLeft⟩ := ihLeft a rfl ha fun model hmodel => h model (by simp [hmodel])
      obtain ⟨b', hreplacedRight⟩ := ihRight b rfl hb fun model hmodel =>
        h model (by simp [hmodel])
      exact ⟨_, .coalesce hreplacedLeft hreplacedRight⟩

/-- A subquery is replaced as a whole; any other node keeps its kind and has
its operands replaced. -/
theorem replaced_cases (h : e.Replaced P e') :
    (∃ model, e = .subquery model ∧ P model e') ∨
      ((∀ model, e ≠ .subquery model) ∧ (∀ model, e' ≠ .subquery model) ∧
        List.Forall₂ (Replaced P) e.operands e'.operands) := by
  cases h with
  | subquery hresult => exact .inl ⟨_, rfl, hresult⟩
  | call htarget harguments =>
      refine .inr ⟨by simp, by simp, ?_⟩
      cases htarget with
      | none => exact harguments
      | some htarget => exact .cons htarget harguments
  | conditional htest htrue hfalse =>
      exact .inr ⟨by simp, by simp, .cons htest (.cons htrue (.cons hfalse .nil))⟩
  | coalesce hleft hright => exact .inr ⟨by simp, by simp, .cons hleft (.cons hright .nil)⟩
  | binary hleft hright => exact .inr ⟨by simp, by simp, .cons hleft (.cons hright .nil)⟩
  | unary hoperand | member hoperand => exact .inr ⟨by simp, by simp, .cons hoperand .nil⟩
  | _ => exact .inr ⟨by simp, by simp, .nil⟩

/-- Every subquery in the new expression stands in what has taken the place
of a subquery of the old one. -/
theorem holds_of_replaced (h : e.Replaced P e') {model : QueryModel}
    (hmodel : e'.Holds model) :
    ∃ old result, e.Holds old ∧ P old result ∧ result.Holds model := by
  induction e using Expr.inductionOnOperands generalizing e' with
  | step e ih =>
      rcases h.replaced_cases with ⟨old, rfl, hresult⟩ | ⟨-, hne, hoperands⟩
      · exact ⟨old, e', by simp, hresult, hmodel⟩
      · rcases holds_iff_operands.mp hmodel with heq | ⟨operand', hoperand', hmodel⟩
        · exact absurd heq (hne model)
        · obtain ⟨operand, hoperand, hreplaced⟩ := exists_left_of_forall₂ hoperands hoperand'
          obtain ⟨old, result, hold, hresult⟩ := ih operand hoperand hreplaced hmodel
          exact ⟨old, result, holds_iff_operands.mpr (.inr ⟨operand, hoperand, hold⟩), hresult⟩

/-- What takes the place of a subquery stands in the new expression. -/
theorem exists_result (h : e.Replaced P e') {model : QueryModel} (hmodel : e.Holds model) :
    ∃ result, P model result ∧ ∀ inner, result.Holds inner → e'.Holds inner := by
  induction e using Expr.inductionOnOperands generalizing e' with
  | step e ih =>
      rcases h.replaced_cases with ⟨old, rfl, hresult⟩ | ⟨hne, -, hoperands⟩
      · obtain rfl := holds_subquery.mp hmodel
        exact ⟨e', hresult, fun inner hinner => hinner⟩
      · rcases holds_iff_operands.mp hmodel with heq | ⟨operand, hoperand, hmodel⟩
        · exact absurd heq (hne model)
        · obtain ⟨operand', hoperand', hreplaced⟩ := exists_right_of_forall₂ hoperands hoperand
          obtain ⟨result, hresult, hholds⟩ := ih operand hoperand hreplaced hmodel
          exact ⟨result, hresult, fun inner hinner =>
            holds_iff_operands.mpr (.inr ⟨operand', hoperand', hholds inner hinner⟩)⟩

/-- What may stand in place of a subquery matters for the subqueries in the
expression only. -/
theorem mono {Q : QueryModel → Expr → Prop} (h : e.Replaced P e')
    (hPQ : ∀ model, e.Holds model → ∀ result, P model result → Q model result) :
    e.Replaced Q e' := by
  induction e using Expr.operandInduction generalizing e' with
  | constant | parameter | source =>
      cases h
      constructor
  | subquery model =>
      cases h with
      | subquery hresult => exact .subquery (hPQ model (by simp) e' hresult)
  | unary operator operand type ih =>
      cases h with
      | unary hoperand => exact .unary (ih hoperand hPQ)
  | binary operator left right ihLeft ihRight =>
      cases h with
      | binary hleft hright =>
          exact .binary (ihLeft hleft fun model hmodel => hPQ model (by simp [hmodel]))
            (ihRight hright fun model hmodel => hPQ model (by simp [hmodel]))
  | member target name type ih =>
      cases h with
      | member htarget => exact .member (ih htarget hPQ)
  | call method target arguments type ihTarget ihArguments =>
      cases h with
      | call htarget harguments =>
          refine .call ?_ (forall₂_mono harguments fun e he e' hreplaced => ?_)
          · cases htarget with
            | none => exact .none
            | some htarget =>
                exact .some (ihTarget _ rfl htarget fun model hmodel => hPQ model (by simp [hmodel]))
          · exact ihArguments e he hreplaced fun model hmodel =>
              hPQ model (holds_call.mpr (.inr ⟨e, he, hmodel⟩))
  | conditional test whenTrue whenFalse ihTest ihTrue ihFalse =>
      cases h with
      | conditional htest htrue hfalse =>
          exact .conditional (ihTest htest fun model hmodel => hPQ model (by simp [hmodel]))
            (ihTrue _ rfl htrue fun model hmodel => hPQ model (by simp [hmodel]))
            (ihFalse _ rfl hfalse fun model hmodel => hPQ model (by simp [hmodel]))
  | coalesce left right ihLeft ihRight =>
      cases h with
      | coalesce hleft hright =>
          exact .coalesce (ihLeft _ rfl hleft fun model hmodel => hPQ model (by simp [hmodel]))
            (ihRight _ rfl hright fun model hmodel => hPQ model (by simp [hmodel]))

/-- Where every subquery is replaced by itself, nothing changes. -/
theorem eq_of_self (h : e.Replaced (fun model result => result = .subquery model) e') :
    e' = e := by
  induction e using Expr.operandInduction generalizing e' with
  | constant | parameter | source =>
      cases h
      rfl
  | subquery model =>
      cases h with
      | subquery hresult => exact hresult
  | unary operator operand type ih =>
      cases h with
      | unary hoperand => rw [ih hoperand]
  | binary operator left right ihLeft ihRight =>
      cases h with
      | binary hleft hright => rw [ihLeft hleft, ihRight hright]
  | member target name type ih =>
      cases h with
      | member htarget => rw [ih htarget]
  | call method target arguments type ihTarget ihArguments =>
      cases h with
      | @call _ _ target' _ arguments' _ htarget harguments =>
          have htarget : target' = target := by
            cases htarget with
            | none => rfl
            | some htarget => rw [ihTarget _ rfl htarget]
          have harguments : List.Forall₂ Eq arguments arguments' :=
            forall₂_mono harguments fun e he e' hreplaced => (ihArguments e he hreplaced).symm
          rw [List.forall₂_eq_eq_eq] at harguments
          rw [htarget, harguments]
  | conditional test whenTrue whenFalse ihTest ihTrue ihFalse =>
      cases h with
      | conditional htest htrue hfalse =>
          rw [ihTest htest, ihTrue _ rfl htrue, ihFalse _ rfl hfalse]
  | coalesce left right ihLeft ihRight =>
      cases h with
      | coalesce hleft hright => rw [ihLeft _ rfl hleft, ihRight _ rfl hright]

/-- A sound expression is replaced by itself exactly if each of its subqueries
is. -/
theorem self_iff (hsound : e.IsSound) :
    e.Replaced P e ↔ ∀ model, e.Holds model → P model (.subquery model) := by
  constructor
  · intro h model hmodel
    clear hsound
    induction e using Expr.inductionOnOperands with
    | step e ih =>
        rcases h.replaced_cases with ⟨old, rfl, hresult⟩ | ⟨hne, -, hoperands⟩
        · obtain rfl := holds_subquery.mp hmodel
          exact hresult
        · rcases holds_iff_operands.mp hmodel with heq | ⟨operand, hoperand, hmodel⟩
          · exact absurd heq (hne model)
          · exact ih operand hoperand (List.forall₂_same.mp hoperands operand hoperand) hmodel
  · intro h
    induction e using Expr.operandInduction with
    | constant value => exact .constant value
    | parameter name type => exact .parameter name type
    | source name type => exact .source name type
    | subquery model => exact .subquery (h model (by simp))
    | unary operator operand type ih => exact .unary (ih hsound h)
    | binary operator left right ihLeft ihRight =>
        obtain ⟨hleft, hright⟩ := isSound_binary.mp hsound
        exact .binary (ihLeft hleft fun model hmodel => h model (by simp [hmodel]))
          (ihRight hright fun model hmodel => h model (by simp [hmodel]))
    | member target name type ih => exact .member (ih hsound h)
    | call method target arguments type ihTarget ihArguments =>
        obtain ⟨hsoundTarget, hsoundArguments⟩ := isSound_call.mp hsound
        refine .call ?_ (List.forall₂_same.mpr fun e he => ?_)
        · cases target with
          | none => exact .none
          | some e =>
              exact .some (ihTarget e rfl (hsoundTarget e rfl) fun model hmodel =>
                h model (by simp [hmodel]))
        · exact ihArguments e he (hsoundArguments e he) fun model hmodel =>
            h model (holds_call.mpr (.inr ⟨e, he, hmodel⟩))
    | conditional test whenTrue whenFalse ihTest ihTrue ihFalse =>
        obtain ⟨htest, a, b, rfl, rfl, -, ha, hb⟩ := isSound_conditional.mp hsound
        exact .conditional (ihTest htest fun model hmodel => h model (by simp [hmodel]))
          (ihTrue a rfl ha fun model hmodel => h model (by simp [hmodel]))
          (ihFalse b rfl hb fun model hmodel => h model (by simp [hmodel]))
    | coalesce left right ihLeft ihRight =>
        obtain ⟨a, b, rfl, rfl, -, ha, hb⟩ := isSound_coalesce.mp hsound
        exact .coalesce (ihLeft a rfl ha fun model hmodel => h model (by simp [hmodel]))
          (ihRight b rfl hb fun model hmodel => h model (by simp [hmodel]))

end Expr.Replaced

/-- An expression is left alone exactly if it is sound and each of its
subqueries is left alone. -/
theorem Expr.rebuild_eq_pure_iff {replace : QueryModel → Expansion Expr} {e : Expr} :
    e.rebuild (Expansion.rebuilder replace) = pure e ↔
      e.IsSound ∧ ∀ model, e.Holds model → replace model = pure (.subquery model) := by
  have hreaches : e.rebuild (Expansion.rebuilder replace) = pure e ↔
      e.IsSound ∧ e.Replaced (fun model result => replace model = pure result) e :=
    @rebuild_reaches_iff Success.quietly replace e e
  rw [hreaches]
  constructor
  · rintro ⟨hsound, hreplaced⟩
    exact ⟨hsound, (Replaced.self_iff hsound).mp hreplaced⟩
  · rintro ⟨hsound, hsubqueries⟩
    exact ⟨hsound, (Replaced.self_iff hsound).mpr hsubqueries⟩

end ObjectQuery
