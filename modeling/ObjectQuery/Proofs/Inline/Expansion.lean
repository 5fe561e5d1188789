import ObjectQuery.Proofs.Expansion.Acceptance
import ObjectQuery.Proofs.Inline.Expr

/-!
# Inlining and expansion

The expansion of a model looks at types, at the names of sources and at the
shape of decisions. A literal in the place of a parameter that is declared
with its type changes none of these. So a model with a parameter inlined can
be expanded exactly if the model can, and what comes out is the expanded
model with the parameter inlined.

The expansion moves expressions about, but makes no parameter. Whatever a
model declares, the expanded model therefore declares too.

## Main results

* `Expr.IsBranch.inline_inPlace` — a source taken apart, with a parameter inlined.
* `QueryModel.inline_isAcceptable_iff` — inlining keeps what can be expanded.
* `expandWithin_inline` — inlining commutes with expansion.
-/

namespace ObjectQuery

open Traced (Success)

variable {name : String} {value : Literal} {type : StaticType} {limit budget : Nat}
  {own : List String}

/-! ## Sources -/

private theorem Expr.inline_refersOutside (e : Expr) :
    (e.inline name value).refersOutside own = e.refersOutside own := by
  unfold refersOutside
  rw [inline_visits, List.any_map]
  congr 1
  funext node
  cases node with
  | parameter other type =>
      rw [Function.comp_apply, inline]
      by_cases hname : other = name
      · rw [if_pos hname]
      · rw [if_neg hname]
  | _ => rfl

/-- Inlining does not change which branches are expanded. -/
theorem Expr.inline_expands {e : Expr} (h : e.Declares name value.type) :
    (e.inline name value).expands own = e.expands own := by
  have hbranch : ∀ {o : Option Expr}, (∀ a, o = some a → a.Declares name value.type) →
      (∀ a, o = some a → a.Declares name value.type →
        (a.inline name value).expands own = a.expands own) →
      branchExpands own (o.map (Expr.inline name value)) = branchExpands own o := by
    intro o hdeclares ho
    cases o with
    | none => rfl
    | some a =>
        have ha := hdeclares a rfl
        rw [Option.map_some, branchExpands, branchExpands, ho a rfl ha, inline_isBranching,
          inline_refersOutside, inline_type ha]
  induction e using Expr.operandInduction with
  | parameter other type =>
      rw [inline]
      split <;> rfl
  | conditional test whenTrue whenFalse _ ihTrue ihFalse =>
      have htrue := hbranch (fun a ha => h.operand (by simp [operands, ha])) ihTrue
      have hfalse := hbranch (fun a ha => h.operand (by simp [operands, ha])) ihFalse
      rw [inline, inlineOption_eq, inlineOption_eq, expands, expands, htrue, hfalse]
  | coalesce left right ihLeft ihRight =>
      have hleft := hbranch (fun a ha => h.operand (by simp [operands, ha])) ihLeft
      have hright := hbranch (fun a ha => h.operand (by simp [operands, ha])) ihRight
      rw [inline, inlineOption_eq, inlineOption_eq, expands, expands, hleft, hright]
  | _ => rfl

namespace Expr.IsBranch

variable {reader : QueryModel} {e : Expr}

/-- What stands in place of a branch with a parameter inlined. -/
theorem inline_inPlace (h : e.IsBranch reader.sourceNames)
    (hdeclares : e.Declares name value.type) :
    (e.inPlace reader).inline name value =
      (e.inline name value).inPlace (reader.inline name value) := by
  have hexpands : ∀ {e : Expr}, e.Declares name value.type →
      (e.inline name value).expands (reader.inline name value).sourceNames =
        e.expands reader.sourceNames := by
    intro e hdeclares
    rw [QueryModel.inline_sourceNames, inline_expands hdeclares]
  induction h with
  | @whole e _ hwhole =>
      have hwhole' := (hexpands hdeclares).trans hwhole
      cases hcollection : e.type.isCollection with
      | true =>
          have hcollection' : (e.inline name value).type.isCollection = true := by
            rw [inline_type hdeclares, hcollection]
          rw [inPlace_of_collection hwhole hcollection, inPlace_of_collection hwhole' hcollection',
            QueryModel.reading, QueryModel.reading, inline, QueryModel.inline_withSource]
      | false =>
          have hcollection' : (e.inline name value).type.isCollection = false := by
            rw [inline_type hdeclares, hcollection]
          rw [inPlace_of_not_collection hwhole hcollection,
            inPlace_of_not_collection hwhole' hcollection']
  | @conditional test a b _ htaken _ _ iha ihb =>
      have htaken' := (hexpands hdeclares).trans htaken
      rw [inline] at htaken' ⊢
      rw [inPlace_conditional htaken, inline, inlineOption, inlineOption,
        iha (hdeclares.operand (by simp [operands])), ihb (hdeclares.operand (by simp [operands]))]
      exact (inPlace_conditional htaken').symm
  | @coalesce a b _ htaken _ _ iha ihb =>
      have htaken' := (hexpands hdeclares).trans htaken
      rw [inline] at htaken' ⊢
      rw [inPlace_coalesce htaken, inline, inlineOption, inlineOption, isPresent, inline, inline,
        iha (hdeclares.operand (by simp [operands])), ihb (hdeclares.operand (by simp [operands]))]
      exact (inPlace_coalesce htaken').symm

/-- What stands in place of a branch declares what the branch and its reader
do. -/
theorem inPlace_declares (h : e.IsBranch reader.sourceNames) (hdeclares : e.Declares name type)
    (hreader : reader.Declares name type) : (e.inPlace reader).Declares name type := by
  induction h with
  | @whole e _ hwhole =>
      cases hcollection : e.type.isCollection with
      | true =>
          rw [inPlace_of_collection hwhole hcollection]
          exact declares_subquery.mpr (hreader.withSource hdeclares)
      | false =>
          rw [inPlace_of_not_collection hwhole hcollection]
          exact hdeclares
  | @conditional test a b _ htaken _ _ iha ihb =>
      have htest : test.Declares name type := hdeclares.operand (by simp [operands])
      have ha := iha (hdeclares.operand (by simp [operands]))
      have hb := ihb (hdeclares.operand (by simp [operands]))
      rw [inPlace_conditional htaken]
      apply declares_of_operands (by simp) (by simp)
      simp [operands, htest, ha, hb]
  | @coalesce a b _ htaken _ _ iha ihb =>
      have hpresent : a.isPresent.Declares name type := by
        have ha : a.Declares name type := hdeclares.operand (by simp [operands])
        apply declares_of_operands (by simp [isPresent]) (by simp [isPresent])
        simp [isPresent, operands, ha, declares_constant]
      have ha := iha (hdeclares.operand (by simp [operands]))
      have hb := ihb (hdeclares.operand (by simp [operands]))
      rw [inPlace_coalesce htaken]
      apply declares_of_operands (by simp) (by simp)
      simp [operands, hpresent, ha, hb]

end Expr.IsBranch

/-! ## Subqueries replaced -/

namespace Expr.Replaced

variable {P Q : QueryModel → Expr → Prop} {e e' : Expr}

/-- Inlining a parameter before subqueries are replaced or after it comes to the
same. -/
theorem inline (h : e.Replaced P e')
    (hPQ : ∀ model, e.Holds model → ∀ result, P model result →
      Q (model.inline name value) (result.inline name value)) :
    (e.inline name value).Replaced Q (e'.inline name value) := by
  induction e using Expr.operandInduction generalizing e' with
  | constant literal =>
      cases h
      rw [Expr.inline]
      exact .constant literal
  | parameter other type =>
      cases h
      rw [Expr.inline]
      by_cases hname : other = name
      · rw [if_pos hname]
        exact .constant value
      · rw [if_neg hname]
        exact .parameter other type
  | source item type =>
      cases h
      rw [Expr.inline]
      exact .source item type
  | subquery model =>
      cases h with
      | subquery hresult =>
          rw [Expr.inline]
          exact .subquery (hPQ model (by simp) e' hresult)
  | unary operator operand type ih =>
      cases h with
      | unary hoperand =>
          rw [Expr.inline, Expr.inline]
          exact .unary (ih hoperand hPQ)
  | binary operator left right ihLeft ihRight =>
      cases h with
      | binary hleft hright =>
          rw [Expr.inline, Expr.inline]
          exact .binary (ihLeft hleft fun model hmodel => hPQ model (by simp [hmodel]))
            (ihRight hright fun model hmodel => hPQ model (by simp [hmodel]))
  | member target property type ih =>
      cases h with
      | member htarget =>
          rw [Expr.inline, Expr.inline]
          exact .member (ih htarget hPQ)
  | call method target arguments type ihTarget ihArguments =>
      cases h with
      | call htarget harguments =>
          simp only [Expr.inline, inlineOption_eq, inlineList_eq]
          refine .call ?_ ?_
          · cases htarget with
            | none => exact .none
            | some htarget =>
                exact .some
                  (ihTarget _ rfl htarget fun model hmodel => hPQ model (by simp [hmodel]))
          · rw [List.forall₂_map_left_iff, List.forall₂_map_right_iff]
            refine forall₂_mono harguments fun e he e' hreplaced => ?_
            exact ihArguments e he hreplaced fun model hmodel =>
              hPQ model (holds_call.mpr (.inr ⟨e, he, hmodel⟩))
  | conditional test whenTrue whenFalse ihTest ihTrue ihFalse =>
      cases h with
      | conditional htest htrue hfalse =>
          simp only [Expr.inline, inlineOption]
          exact .conditional (ihTest htest fun model hmodel => hPQ model (by simp [hmodel]))
            (ihTrue _ rfl htrue fun model hmodel => hPQ model (by simp [hmodel]))
            (ihFalse _ rfl hfalse fun model hmodel => hPQ model (by simp [hmodel]))
  | coalesce left right ihLeft ihRight =>
      cases h with
      | coalesce hleft hright =>
          simp only [Expr.inline, inlineOption]
          exact .coalesce (ihLeft _ rfl hleft fun model hmodel => hPQ model (by simp [hmodel]))
            (ihRight _ rfl hright fun model hmodel => hPQ model (by simp [hmodel]))

/-- Where what takes the place of each subquery declares what the expression
does, so does the new expression. -/
theorem declares (h : e.Replaced P e') (hdeclares : e.Declares name type)
    (hresults : ∀ model, e.Holds model → ∀ result, P model result → result.Declares name type) :
    e'.Declares name type := by
  induction e using Expr.inductionOnOperands generalizing e' with
  | step e ih =>
      have hparameter : ∀ other t, e' = .parameter other t → e = .parameter other t ∨
          ∃ model, e = .subquery model := by
        intro other t he'
        subst he'
        cases h with
        | parameter => exact .inl rfl
        | subquery => exact .inr ⟨_, rfl⟩
      rcases h.replaced_cases with ⟨model, rfl, hresult⟩ | ⟨hne, hne', hoperands⟩
      · exact hresults model (by simp) e' hresult
      · by_cases hleaf : ∃ other t, e' = .parameter other t
        · obtain ⟨other, t, he'⟩ := hleaf
          rcases hparameter other t he' with he | ⟨model, he⟩
          · rw [he', ← he]
            exact hdeclares
          · exact absurd he (hne model)
        · apply declares_of_operands (fun other t he' => hleaf ⟨other, t, he'⟩) hne'
          intro operand' hoperand'
          obtain ⟨operand, hoperand, hreplaced⟩ := exists_left_of_forall₂ hoperands hoperand'
          exact ih operand hoperand hreplaced (hdeclares.operand hoperand) fun model hmodel =>
            hresults model (holds_iff_operands.mpr (.inr ⟨operand, hoperand, hmodel⟩))

end Expr.Replaced

namespace QueryModel.Related

variable {R S : Expr → Expr → Prop} {model model' : QueryModel}

/-- Models that differ in their clauses still do with a parameter inlined. -/
theorem inline (h : model.Related R model')
    (hRS : ∀ e ∈ model.clauseExpressions, ∀ e', R e e' →
      S (e.inline name value) (e'.inline name value)) :
    (model.inline name value).Related S (model'.inline name value) := by
  have hinlined := h.mono (S := fun e e' => S (e.inline name value) (e'.inline name value)) hRS
  have hoption : ∀ {o o' : Option Expr},
      Option.Rel (fun e e' => S (e.inline name value) (e'.inline name value)) o o' →
      Option.Rel S (o.map (Expr.inline name value)) (o'.map (Expr.inline name value)) := by
    intro o o' hrel
    cases hrel with
    | none => exact .none
    | some hrelated => exact .some hrelated
  have hoperator : ∀ {operator operator' : ResultOperator},
      operator.Related (fun e e' => S (e.inline name value) (e'.inline name value)) operator' →
      (operator.inline name value).Related S (operator'.inline name value) := by
    intro operator operator' hrelated
    unfold ResultOperator.Related at hrelated ⊢
    cases operator with
    | all | take | skip | contains =>
        obtain ⟨e', hS, rfl⟩ := hrelated
        exact ⟨_, hS, rfl⟩
    | _ =>
        obtain rfl := hrelated
        rfl
  rw [QueryModel.inline_eq, QueryModel.inline_eq]
  refine ⟨hinlined.item, hinlined.itemType, ?_, ?_, hoption hinlined.filter,
    hoption hinlined.having, ?_, hoption hinlined.selector, ?_⟩
  · exact congrArg (Option.map (Expr.inline name value)) hinlined.source
  · exact congrArg (List.map (JoinClause.inline name value)) hinlined.joins
  · rw [List.forall₂_map_left_iff, List.forall₂_map_right_iff]
    exact hinlined.orderings
  · rw [List.forall₂_map_left_iff, List.forall₂_map_right_iff]
    exact hinlined.operators.imp fun _ _ hrelated => hoperator hrelated

/-- Where related clauses declare what the old ones do, so does the model. -/
theorem declares (h : model.Related R model') (hdeclares : model.Declares name type)
    (hR : ∀ e ∈ model.clauseExpressions, ∀ e', R e e' → e'.Declares name type) :
    model'.Declares name type := by
  intro e' he'
  rcases List.mem_append.mp he' with hsource | hclause
  · have hsame : model'.sourceExpressions = model.sourceExpressions := by
      unfold sourceExpressions
      rw [h.source, h.joins]
    rw [hsame] at hsource
    exact hdeclares e' (List.mem_append_left _ hsource)
  · obtain ⟨e, he, hrelated⟩ := exists_left_of_forall₂ h.clauseExpressions hclause
    exact hR e he e' hrelated

end QueryModel.Related

/-! ## Models -/

namespace QueryModel.Becomes

variable {nested nested' : QueryModel} {source result : Expr}

/-- What takes the place of a subquery with a parameter inlined. -/
theorem inline (h : nested.Becomes limit budget nested' source result)
    (hscalar : value.isScalar = true) (hdeclares : nested'.Declares name value.type)
    (hexpand : ((nested.inline name value).expandWithin limit budget).outcome =
      .ok (nested'.inline name value)) :
    (nested.inline name value).Becomes limit budget (nested'.inline name value)
      (source.inline name value) (result.inline name value) := by
  have hsource : source.Declares name value.type := hdeclares.source h.source_eq
  have hexpands : (source.inline name value).expands (nested'.inline name value).sourceNames =
      source.expands nested'.sourceNames := by
    rw [inline_sourceNames, Expr.inline_expands hsource]
  refine ⟨hexpand, ?_, ?_, ?_⟩
  · rw [inline_source, h.source_eq, Option.map_some]
  · intro hbranching
    rw [Expr.inline_isBranching] at hbranching
    exact (Expr.inline_isSound_iff hscalar hsource).mpr (h.isSound hbranching)
  · rw [hexpands]
    by_cases htaken : source.expands nested'.sourceNames = true
    · have hbranch := Expr.isBranch nested'.sourceNames (h.isSound_of_expands htaken)
      rw [if_pos htaken, h.result_eq, if_pos htaken, hbranch.inline_inPlace hsource]
    · rw [if_neg htaken, h.result_eq, if_neg htaken, Expr.inline]

private theorem result_declares (h : nested.Becomes limit budget nested' source result)
    (hdeclares : nested'.Declares name type) : result.Declares name type := by
  rw [h.result_eq]
  by_cases htaken : source.expands nested'.sourceNames = true
  · have hbranch := Expr.isBranch nested'.sourceNames (h.isSound_of_expands htaken)
    rw [if_pos htaken]
    exact hbranch.inPlace_declares (hdeclares.source h.source_eq) hdeclares
  · rw [if_neg htaken]
    exact Expr.declares_subquery.mpr hdeclares

end QueryModel.Becomes

section

variable {model model' : QueryModel}

/-- Inlining commutes with the expansion of a model that declares the parameter
with the type of the literal, and the expanded model declares it too. The
induction is on how deep subqueries may nest. -/
theorem expandWithin_inline (hscalar : value.isScalar = true)
    (hdeclares : model.Declares name value.type)
    (hexpand : (model.expandWithin limit budget).outcome = .ok model') :
    ((model.inline name value).expandWithin limit budget).outcome =
        .ok (model'.inline name value) ∧ model'.Declares name value.type := by
  induction budget using Nat.strongRecOn generalizing model model' with
  | ind budget ih =>
      have hrelated :=
        (@expandWithin_reaches_iff limit budget model model' Success.anyhow).mp hexpand
      have hreplacement : ∀ {nested : QueryModel} {result : Expr},
          nested.Declares name value.type →
          (Expansion.replacement limit budget nested).outcome = .ok result →
          (Expansion.replacement limit budget (nested.inline name value)).outcome =
              .ok (result.inline name value) ∧ result.Declares name value.type := by
        intro nested result hnested hresult
        obtain ⟨left, nested', source, hbudget, hbecomes⟩ := replacement_outcome_iff.mp hresult
        obtain ⟨hexpand', hnested'⟩ := ih left (by omega) hnested hbecomes.expandWithin_eq
        refine ⟨?_, hbecomes.result_declares hnested'⟩
        exact replacement_outcome_iff.mpr
          ⟨left, _, _, hbudget, hbecomes.inline hscalar hnested' hexpand'⟩
      constructor
      · refine (@expandWithin_reaches_iff limit budget _ _ Success.anyhow).mpr ?_
        apply hrelated.inline
        intro e he e' h
        have hdeclaresClause := hdeclares.clause he
        refine ⟨(Expr.inline_isSound_iff hscalar hdeclaresClause).mpr h.1, h.2.inline ?_⟩
        intro nested hholds result hresult
        exact (hreplacement (hdeclaresClause.of_holds hholds) hresult).1
      · apply hrelated.declares hdeclares
        intro e he e' h
        have hdeclaresClause := hdeclares.clause he
        apply h.2.declares hdeclaresClause
        intro nested hholds result hresult
        exact (hreplacement (hdeclaresClause.of_holds hholds) hresult).2

/-! ## What can be expanded -/

/-- The subqueries in the clauses of a model with a parameter inlined. -/
theorem QueryModel.inline_nests_iff {nested : QueryModel} :
    (model.inline name value).Nests nested ↔
      ∃ inner : QueryModel, model.Nests inner ∧ nested = inner.inline name value := by
  unfold Nests
  rw [inline_clauseExpressions]
  constructor
  · intro h
    obtain ⟨e', he', hholds⟩ := h
    obtain ⟨e, he, rfl⟩ := List.mem_map.mp he'
    obtain ⟨inner, hinner, hnested⟩ := Expr.inline_holds_iff.mp hholds
    exact ⟨inner, ⟨e, he, hinner⟩, hnested⟩
  · intro h
    obtain ⟨inner, ⟨e, he, hholds⟩, hnested⟩ := h
    exact ⟨e.inline name value, List.mem_map_of_mem he,
      Expr.inline_holds_iff.mpr ⟨inner, hholds, hnested⟩⟩

private theorem QueryModel.Declares.nests (h : model.Declares name type) {nested : QueryModel}
    (hnests : model.Nests nested) : nested.Declares name type := by
  obtain ⟨e, he, hholds⟩ := hnests
  exact (h.clause he).of_holds hholds

variable (hscalar : value.isScalar = true)

include hscalar

private theorem QueryModel.inline_hasFittingClauses_iff (h : model.Declares name value.type) :
    (model.inline name value).HasFittingClauses ↔ model.HasFittingClauses := by
  unfold HasFittingClauses
  rw [inline_clauseExpressions, List.forall_mem_map]
  refine forall₂_congr fun e he => ?_
  rw [← Expr.isSound_iff_isWellBranched, ← Expr.isSound_iff_isWellBranched]
  exact Expr.inline_isSound_iff hscalar (h.clause he)

private theorem QueryModel.inline_hasFittingSource_iff (h : model.Declares name value.type) :
    (model.inline name value).HasFittingSource ↔ model.HasFittingSource := by
  unfold HasFittingSource
  rw [inline_source]
  cases hsource : model.source with
  | none => simp
  | some source =>
      simp only [Option.map_some, Option.some.injEq, exists_eq_left', Expr.inline_isBranching,
        ← Expr.isSound_iff_isWellBranched, Expr.inline_isSound_iff hscalar (h.source hsource)]

/-- Inlining keeps what can be expanded. The induction is on how deep subqueries
may nest. -/
theorem QueryModel.inline_isAcceptable_iff (h : model.Declares name value.type) :
    (model.inline name value).IsAcceptable budget ↔ model.IsAcceptable budget := by
  induction budget using Nat.strongRecOn generalizing model with
  | ind budget ih =>
      have hnested : ∀ nested, model.Nests nested →
          ((∃ left, budget = left + 1 ∧ (nested.inline name value).HasFittingSource ∧
              (nested.inline name value).IsAcceptable left) ↔
            ∃ left, budget = left + 1 ∧ nested.HasFittingSource ∧ nested.IsAcceptable left) := by
        intro nested hnests
        have hdeclares := h.nests hnests
        refine exists_congr fun left => and_congr_right fun hbudget => ?_
        rw [inline_hasFittingSource_iff hscalar hdeclares, ih left (by omega) hdeclares]
      rw [isAcceptable_iff, isAcceptable_iff, inline_hasFittingClauses_iff hscalar h]
      refine and_congr_right fun _ => ?_
      constructor
      · intro hall nested hnests
        exact (hnested nested hnests).mp (hall _ (inline_nests_iff.mpr ⟨nested, hnests, rfl⟩))
      · intro hall nested' hnests'
        obtain ⟨nested, hnests, rfl⟩ := inline_nests_iff.mp hnests'
        exact (hnested nested hnests).mpr (hall nested hnests)

/-- A model with a parameter inlined is expanded exactly into an expanded model
with the parameter inlined. -/
theorem inline_expandWithin_iff (h : model.Declares name value.type) :
    ((model.inline name value).expandWithin limit budget).outcome = .ok model' ↔
      ∃ expanded, (model.expandWithin limit budget).outcome = .ok expanded ∧
        model' = expanded.inline name value := by
  constructor
  · intro hinlined
    have hacceptable : model.IsAcceptable budget :=
      (QueryModel.inline_isAcceptable_iff hscalar h).mp (exists_expandWithin_iff.mp ⟨_, hinlined⟩)
    obtain ⟨expanded, hexpand⟩ :
        ∃ expanded, (model.expandWithin limit budget).outcome = .ok expanded :=
      exists_expandWithin_iff.mpr hacceptable
    obtain ⟨hsame, -⟩ := expandWithin_inline hscalar h hexpand
    exact ⟨expanded, hexpand, Except.ok.inj (hinlined.symm.trans hsame)⟩
  · intro hexpanded
    obtain ⟨expanded, hexpand, rfl⟩ := hexpanded
    exact (expandWithin_inline hscalar h hexpand).1

end

end ObjectQuery
