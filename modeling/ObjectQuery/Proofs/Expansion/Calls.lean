import ObjectQuery.Proofs.Expansion.Basic
import ObjectQuery.Proofs.Expr.Nesting

/-!
# Which methods a model calls

A call may stand anywhere in a model, also in a subquery or in the source of
one. The expansion takes sources apart and copies the clauses of subqueries,
but every call in the expanded model is one that was copied from the model.
So whatever is known about the methods that a model calls is known about its
normal form.

## Main definitions

* `Expr.Calls`, `QueryModel.Calls` — a method is called somewhere.

## Main results

* `Expr.calls_iff` — where a call in an expression stands.
* `expandWithin_calls` — an expanded model calls what the model calls.
-/

namespace ObjectQuery

open Traced (Success)

/-! ## Calls -/

/-- The method is called somewhere in the expression. -/
def Expr.Calls (method : MethodSignature) (e : Expr) : Prop :=
  ∃ depth target arguments type, e.ContainsAt depth (.call method target arguments type)

/-- The method is called somewhere in the model. -/
def QueryModel.Calls (method : MethodSignature) (model : QueryModel) : Prop :=
  ∃ e ∈ model.expressions, e.Calls method

section

variable {method : MethodSignature} {model : QueryModel} {e : Expr}

/-- A method called in an expression is called by the expression itself, in an
operand, or in the model of a subquery. -/
theorem Expr.calls_iff : e.Calls method ↔
    (∃ target arguments type, e = .call method target arguments type) ∨
      (∃ operand ∈ e.operands, operand.Calls method) ∨
      ∃ model, e = .subquery model ∧ model.Calls method := by
  constructor
  · intro h
    obtain ⟨depth, target, arguments, type, hcontains⟩ := h
    obtain ⟨-, hself⟩ | ⟨operand, hoperand, hcontains⟩ |
      ⟨model, deep, hmodel, -, inner, hinner, hcontains⟩ := containsAt_iff.mp hcontains
    · exact .inl ⟨target, arguments, type, hself.symm⟩
    · exact .inr (.inl ⟨operand, hoperand, depth, target, arguments, type, hcontains⟩)
    · exact .inr (.inr ⟨model, hmodel, inner, hinner, deep, target, arguments, type, hcontains⟩)
  · intro h
    obtain ⟨target, arguments, type, rfl⟩ | ⟨operand, hoperand, hcalls⟩ |
      ⟨model, rfl, inner, hinner, hcalls⟩ := h
    · exact ⟨0, target, arguments, type, .self⟩
    · obtain ⟨depth, target, arguments, type, hcontains⟩ := hcalls
      exact ⟨depth, target, arguments, type, .operand hoperand hcontains⟩
    · obtain ⟨depth, target, arguments, type, hcontains⟩ := hcalls
      exact ⟨depth + 1, target, arguments, type, .subquery hinner hcontains⟩

theorem Expr.calls_call (method : MethodSignature) (target : Option Expr)
    (arguments : List Expr) (type : StaticType) :
    (call method target arguments type).Calls method :=
  calls_iff.mpr (.inl ⟨target, arguments, type, rfl⟩)

theorem Expr.Calls.operand {operand : Expr} (h : operand.Calls method)
    (hoperand : operand ∈ e.operands) : e.Calls method :=
  calls_iff.mpr (.inr (.inl ⟨operand, hoperand, h⟩))

theorem Expr.calls_subquery : (subquery model).Calls method ↔ model.Calls method := by
  constructor
  · intro h
    obtain ⟨_, _, _, hcall⟩ | ⟨operand, hoperand, -⟩ | ⟨other, hother, hcalls⟩ := calls_iff.mp h
    · cases hcall
    · cases hoperand
    · obtain rfl := subquery.inj hother
      exact hcalls
  · intro h
    exact calls_iff.mpr (.inr (.inr ⟨model, rfl, h⟩))

/-- Whatever is no call and no subquery calls what its operands do. -/
theorem Expr.Calls.of_operands (h : e.Calls method)
    (hcall : ∀ target arguments type, e ≠ .call method target arguments type)
    (hsubquery : ∀ model, e ≠ .subquery model) : ∃ operand ∈ e.operands, operand.Calls method := by
  obtain ⟨target, arguments, type, heq⟩ | hoperand | ⟨model, heq, -⟩ := calls_iff.mp h
  · exact absurd heq (hcall target arguments type)
  · exact hoperand
  · exact absurd heq (hsubquery model)

private theorem QueryModel.Calls.of_source {source : Expr} (h : source.Calls method)
    (hsource : model.source = some source) : model.Calls method :=
  ⟨source, by simp [expressions, sourceExpressions, hsource], h⟩

/-- With another source a model calls what the source and the model call. -/
theorem QueryModel.Calls.of_withSource (h : (model.withSource e).Calls method) :
    e.Calls method ∨ model.Calls method := by
  obtain ⟨other, hother, hcalls⟩ := h
  rcases List.mem_append.mp hother with hsource | hclause
  · rcases List.mem_append.mp hsource with hmain | hjoins
    · rw [List.mem_singleton.mp hmain] at hcalls
      exact .inl hcalls
    · exact .inr ⟨other, List.mem_append_left _ (List.mem_append_right _ hjoins), hcalls⟩
  · exact .inr ⟨other, List.mem_append_right _ hclause, hcalls⟩

end

/-! ## Expansion makes no calls -/

variable {limit budget : Nat} {method : MethodSignature}

/-- What stands in place of a branch calls what the branch and its reader call.
The induction is on the decisions that are taken apart. -/
theorem Expr.IsBranch.inPlace_calls {reader : QueryModel} {e : Expr}
    (h : e.IsBranch reader.sourceNames) (hcalls : (e.inPlace reader).Calls method) :
    e.Calls method ∨ reader.Calls method := by
  induction h with
  | @whole e _ hwhole =>
      cases hcollection : e.type.isCollection with
      | true =>
          rw [inPlace_of_collection hwhole hcollection] at hcalls
          exact (calls_subquery.mp hcalls).of_withSource
      | false =>
          rw [inPlace_of_not_collection hwhole hcollection] at hcalls
          exact .inl hcalls
  | @conditional test a b _ htaken _ _ iha ihb =>
      rw [inPlace_conditional htaken] at hcalls
      obtain ⟨operand, hoperand, hinside⟩ := hcalls.of_operands (by simp) (by simp)
      simp only [operands, Option.toList, List.mem_append, List.mem_cons, List.not_mem_nil,
        or_false] at hoperand
      rcases hoperand with rfl | rfl | rfl
      · exact .inl (hinside.operand (by simp [operands]))
      · exact (iha hinside).imp_left fun ha => ha.operand (by simp [operands])
      · exact (ihb hinside).imp_left fun hb => hb.operand (by simp [operands])
  | @coalesce a b _ htaken _ _ iha ihb =>
      rw [inPlace_coalesce htaken] at hcalls
      obtain ⟨operand, hoperand, hinside⟩ := hcalls.of_operands (by simp) (by simp)
      simp only [operands, Option.toList, List.mem_append, List.mem_cons, List.not_mem_nil,
        or_false] at hoperand
      rcases hoperand with rfl | rfl | rfl
      · -- the test compares the left operand with null
        obtain ⟨compared, hcompared, hdeep⟩ := hinside.of_operands (by simp [isPresent])
          (by simp [isPresent])
        rcases List.mem_pair.mp hcompared with rfl | rfl
        · exact .inl (hdeep.operand (by simp [operands]))
        · obtain ⟨_, hnone, -⟩ := hdeep.of_operands (by simp) (by simp)
          cases hnone
      · exact (iha hinside).imp_left fun ha => ha.operand (by simp [operands])
      · exact (ihb hinside).imp_left fun hb => hb.operand (by simp [operands])

/-- Where what takes the place of each subquery calls only what the subquery
does, so does the new expression. -/
theorem Expr.Replaced.calls {P : QueryModel → Expr → Prop} {e e' : Expr} (h : e.Replaced P e')
    (hresults : ∀ model result, P model result → result.Calls method → model.Calls method)
    (hcalls : e'.Calls method) : e.Calls method := by
  induction e using Expr.inductionOnOperands generalizing e' with
  | step e ih =>
      rcases h.replaced_cases with ⟨model, rfl, hresult⟩ | ⟨-, hne', hoperands⟩
      · exact calls_subquery.mpr (hresults model e' hresult hcalls)
      · obtain ⟨target, arguments, type, rfl⟩ | ⟨operand', hoperand', hcalls⟩ | ⟨model, heq, -⟩ :=
          calls_iff.mp hcalls
        · cases h with
          | subquery hresult => exact calls_subquery.mpr (hresults _ _ hresult hcalls)
          | call => exact calls_call _ _ _ _
        · obtain ⟨operand, hoperand, hreplaced⟩ := exists_left_of_forall₂ hoperands hoperand'
          exact (ih operand hoperand hreplaced hcalls).operand hoperand
        · exact absurd heq (hne' model)

namespace QueryModel

variable {model model' nested nested' : QueryModel} {source result : Expr}

/-- Where the clauses of a model call nothing new when they are replaced, the
model calls nothing new. -/
theorem Related.calls {R : Expr → Expr → Prop} (h : model.Related R model')
    (hR : ∀ e e', R e e' → e'.Calls method → e.Calls method) (hcalls : model'.Calls method) :
    model.Calls method := by
  obtain ⟨e', he', hcalls⟩ := hcalls
  rcases List.mem_append.mp he' with hsource | hclause
  · refine ⟨e', List.mem_append_left _ ?_, hcalls⟩
    unfold sourceExpressions at hsource ⊢
    rw [h.source, h.joins] at hsource
    exact hsource
  · obtain ⟨e, he, hrelated⟩ := exists_left_of_forall₂ h.clauseExpressions hclause
    exact ⟨e, List.mem_append_right _ he, hR e e' hrelated hcalls⟩

/-- What takes the place of a subquery calls what the subquery with its expanded
clauses calls. -/
theorem Becomes.calls (h : nested.Becomes limit budget nested' source result)
    (hcalls : result.Calls method) : nested'.Calls method := by
  rw [h.result_eq] at hcalls
  by_cases htaken : source.expands nested'.sourceNames = true
  · rw [if_pos htaken] at hcalls
    obtain hsource | hmodel :=
      (Expr.isBranch nested'.sourceNames (h.isSound_of_expands htaken)).inPlace_calls hcalls
    · exact .of_source hsource h.source_eq
    · exact hmodel
  · rw [if_neg htaken] at hcalls
    exact Expr.calls_subquery.mp hcalls

end QueryModel

/-- An expanded model calls what the model calls. The induction is on how deep
subqueries may nest. -/
theorem expandWithin_calls {model model' : QueryModel}
    (hexpand : (model.expandWithin limit budget).outcome = .ok model')
    (hcalls : model'.Calls method) : model.Calls method := by
  induction budget using Nat.strongRecOn generalizing model model' with
  | ind budget ih =>
      have hrelated :=
        (@expandWithin_reaches_iff limit budget model model' Success.anyhow).mp hexpand
      refine hrelated.calls (fun e e' hreplaced => hreplaced.2.calls ?_) hcalls
      intro nested result hresult hcalls
      obtain ⟨left, nested', source, hbudget, hbecomes⟩ := replacement_outcome_iff.mp hresult
      exact ih left (by omega) hbecomes.expandWithin_eq (hbecomes.calls hcalls)

end ObjectQuery
