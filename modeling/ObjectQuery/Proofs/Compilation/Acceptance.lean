import ObjectQuery.Proofs.Compilation.Meaning
import ObjectQuery.Proofs.Expansion.Acceptance
import ObjectQuery.Proofs.Lowering.Succeeds

/-!
# Compiling what can be lowered

A model that can be lowered as it is can always be expanded. Whether it can be
lowered then is a matter of types. A source that is taken apart leaves a
decision in place of the subquery, and a decision has the type of its first
branch. Where that branch was a collection, it has become a subquery and the
type is that of the old one. Where it was none, it was left out and brings its
own type along, which nothing relates to the type of the subquery: the untyped
object in the middle of a source fits beside anything, so the first branch need
not fit beside the collections at all. A decision around the subquery then may
have branches that fit no longer.

Apart from the types nothing is lost: the expanded model can be lowered exactly
if the branches of all its decisions fit.

## Main definitions

* `QueryModel.KeepsItsPlace` — what stands in place of a subquery fits wherever
  the subquery does.

## Main results

* `expandWithin_fits` — where every subquery keeps its place, all branches still
  fit.
* `expandWithin_lowers` — where all branches still fit, the expanded model can
  be lowered.
* `compile_iff_fits` — which of the models that can be lowered can be compiled.
-/

namespace ObjectQuery

open Hql (Node Query)
open Relation (TransGen)
open Traced (Success)

/-- If the source of the model is taken apart, what stands in place of the
subquery passes every check of branches that the subquery passes. -/
def QueryModel.KeepsItsPlace (model : QueryModel) : Prop :=
  ∀ source, model.source = some source → source.expands model.sourceNames = true →
    model.resultType.ReplaceableBy (source.typeApart model)

/-- What leads the source decides: a collection, something untyped, or something
that fits beside the subquery, if that is not untyped itself. -/
theorem QueryModel.keepsItsPlace_iff {model : QueryModel} :
    model.KeepsItsPlace ↔ ∀ source, model.source = some source →
      source.expands model.sourceNames = true →
        source.type.isCollection = true ∨ source.type.nonNull = .object ∨
          model.resultType.nonNull ≠ .object ∧
            model.resultType.isCompatible source.type = true := by
  refine forall_congr' fun source => imp_congr_right fun _ => imp_congr_right fun _ => ?_
  unfold Expr.typeApart
  cases hcollection : source.type.isCollection with
  | true =>
      have hself : model.resultType.ReplaceableBy model.resultType.nonNull :=
        (StaticType.ReplaceableBy.refl _).congr rfl (StaticType.nonNull_nonNull _).symm
      simp [hself]
  | false =>
      rw [if_neg Bool.false_ne_true, StaticType.replaceableBy_iff (by simpa using hcollection),
        StaticType.nonNull_nonNull, StaticType.isCompatible_nonNull_right]
      simp

section

variable {registry : Registry} {limit depth budget : Nat} {model model' : QueryModel}

/-! ## Branches after the expansion -/

/-- Where every subquery is replaced by what fits wherever the subquery did,
the whole expression fits wherever it did, and so do the branches in it. -/
theorem Expr.Replaced.replaceableBy {P : QueryModel → Expr → Prop} {e e' : Expr}
    (h : e.Replaced P e') (hsound : e.IsSound)
    (hresults : ∀ model result, e.Holds model → P model result →
      result.IsSound ∧ model.resultType.ReplaceableBy result.type) :
    e'.IsSound ∧ e.type.ReplaceableBy e'.type := by
  induction e using inductionOnOperands generalizing e' with
  | step e ih =>
      rcases h.replaced_cases with ⟨model, rfl, hresult⟩ | ⟨hsubquery, -, hoperands⟩
      · rw [type]
        exact hresults model e' (by simp) hresult
      · obtain ⟨hcheck, hsounds⟩ := isSound_iff_operands.mp hsound
        have hoperand : ∀ {a a' : Expr}, a ∈ e.operands → a.Replaced P a' →
            a'.IsSound ∧ a.type.ReplaceableBy a'.type := by
          intro a a' ha hreplaced
          refine ih a ha hreplaced (hsounds a ha) fun model result hholds hresult => ?_
          exact hresults model result (holds_iff_operands.mpr (.inr ⟨a, ha, hholds⟩)) hresult
        have hsounds' : ∀ a' ∈ e'.operands, a'.IsSound := by
          intro a' ha'
          obtain ⟨a, ha, hreplaced⟩ := exists_left_of_forall₂ hoperands ha'
          exact (hoperand ha hreplaced).1
        have hfits : ∀ {a a' b b' : Expr}, a.fitsBeside b = true →
            a ∈ e.operands → a.Replaced P a' → b ∈ e.operands → b.Replaced P b' →
              a'.fitsBeside b' = true := by
          intro a a' b b' hfit ha hreplaced hb hreplaced'
          rw [fitsBeside_eq] at hfit ⊢
          exact (hoperand ha hreplaced).2.isCompatible (hoperand hb hreplaced').2 hfit
        rw [isSound_iff_operands]
        cases h with
        | subquery => exact absurd rfl (hsubquery _)
        | @unary operator operand operand' type hreplaced =>
            refine ⟨⟨rfl, hsounds'⟩, ?_⟩
            cases operator with
            | negate => exact (hoperand (by simp [operands]) hreplaced).2
            | _ => exact .refl _
        | @binary operator left left' right right' hleft hright =>
            refine ⟨⟨rfl, hsounds'⟩, ?_⟩
            rw [type, type]
            cases operator.isArithmetic with
            | true => exact (hoperand (by simp [operands]) hleft).2
            | false => exact .refl _
        | @conditional test test' a a' b b' htest ha hb =>
            obtain ⟨_, _, ⟨⟩, ⟨⟩, hfit⟩ := checkBranches_conditional_iff.mp hcheck
            have hfit' := hfits hfit (by simp [operands]) ha (by simp [operands]) hb
            refine ⟨⟨checkBranches_conditional_iff.mpr ⟨a', b', rfl, rfl, hfit'⟩, hsounds'⟩, ?_⟩
            rw [type, type]
            exact (hoperand (by simp [operands]) ha).2
        | @coalesce a a' b b' ha hb =>
            obtain ⟨_, _, ⟨⟩, ⟨⟩, hfit⟩ := checkBranches_coalesce_iff.mp hcheck
            have hfit' := hfits hfit (by simp [operands]) ha (by simp [operands]) hb
            refine ⟨⟨checkBranches_coalesce_iff.mpr ⟨a', b', rfl, rfl, hfit'⟩, hsounds'⟩, ?_⟩
            rw [type, type]
            exact (hoperand (by simp [operands]) ha).2.nonNull
        | _ => exact ⟨⟨rfl, hsounds'⟩, .refl _⟩

namespace Expr.IsBranch

variable {reader : QueryModel} {own : List String} {e : Expr}

/-- What stands in place of a branch is sound. -/
theorem inPlace_isSound (h : e.IsBranch reader.sourceNames) (hsound : e.IsSound) :
    (e.inPlace reader).IsSound := by
  induction h with
  | @whole e _ hexpands =>
      cases hcollection : e.type.isCollection with
      | true =>
          rw [inPlace_of_collection hexpands hcollection]
          exact isSound_subquery _
      | false =>
          rw [inPlace_of_not_collection hexpands hcollection]
          exact hsound
  | conditional htest hexpands _ _ iha ihb =>
      obtain ⟨-, _, _, ⟨⟩, ⟨⟩, hfit, ha, hb⟩ := isSound_conditional.mp hsound
      rw [inPlace_conditional hexpands]
      exact isSound_conditional.mpr ⟨htest, _, _, rfl, rfl, fitsBeside_inPlace ha hb hfit,
        iha ha, ihb hb⟩
  | coalesce hleft hexpands _ _ iha ihb =>
      obtain ⟨_, _, ⟨⟩, ⟨⟩, hfit, ha, hb⟩ := isSound_coalesce.mp hsound
      rw [inPlace_coalesce hexpands]
      exact isSound_conditional.mpr ⟨isSound_binary.mpr ⟨hleft, isSound_constant _⟩, _, _, rfl,
        rfl, fitsBeside_inPlace ha hb hfit, iha ha, ihb hb⟩

/-- The parts of a source that can be lowered can be lowered. -/
theorem lowers_of_mem_parts (h : e.IsBranch own) (he : e.Lowers registry limit depth)
    {part : SourcePart} (hpart : part ∈ e.parts own) : part.expr.Lowers registry limit depth := by
  induction h with
  | whole _ hexpands =>
      rw [parts_eq_whole hexpands] at hpart
      rw [List.mem_singleton.mp hpart, wholePart_expr]
      exact he
  | conditional _ hexpands _ _ iha ihb =>
      obtain ⟨-, htest, ha, hb⟩ := lowers_conditional_iff.mp he
      rw [parts_conditional hexpands] at hpart
      rcases List.mem_cons.mp hpart with rfl | hpart
      · exact htest
      rcases List.mem_append.mp hpart with hpart | hpart
      · exact iha ha hpart
      · exact ihb hb hpart
  | coalesce _ hexpands _ _ iha ihb =>
      obtain ⟨-, ha, hb⟩ := lowers_coalesce_iff.mp he
      rw [parts_coalesce hexpands] at hpart
      rcases List.mem_cons.mp hpart with rfl | hpart
      · exact ha
      rcases List.mem_append.mp hpart with hpart | hpart
      · exact iha ha hpart
      · exact ihb hb hpart

end Expr.IsBranch

namespace QueryModel.Becomes

variable {nested nested' : QueryModel} {source result : Expr}

/-- The source of a subquery that can be lowered can be lowered; it is not
changed by the expansion. -/
theorem source_lowers (h : nested.Becomes limit budget nested' source result)
    (hnested : nested.Lowers registry limit depth) : source.Lowers registry limit depth := by
  have hsource := (expandWithin_source h.expandWithin_eq).1.symm.trans h.source_eq
  exact (lowers_iff.mp hnested).2.1 source (by simp [sourceExpressions, hsource])

/-- What takes the place of a subquery that keeps its place passes the checks
that the subquery passes. -/
theorem replaceableBy (h : nested.Becomes limit budget nested' source result)
    (hkeeps : nested.KeepsItsPlace)
    (htype : nested.resultType.ReplaceableBy nested'.resultType) :
    result.IsSound ∧ nested.resultType.ReplaceableBy result.type := by
  obtain ⟨hsame, hnames⟩ := expandWithin_source h.expandWithin_eq
  by_cases hexpands : source.expands nested'.sourceNames = true
  · have hsound := h.isSound_of_expands hexpands
    have hresult : result = source.inPlace nested' := by rw [h.result_eq, if_pos hexpands]
    rw [hresult]
    refine ⟨(Expr.isBranch _ hsound).inPlace_isSound hsound, ?_⟩
    have hplace : nested.resultType.ReplaceableBy (source.typeApart nested') := by
      rw [hnames] at hexpands
      have hbefore := hkeeps source (hsame.symm.trans h.source_eq) hexpands
      unfold Expr.typeApart at hbefore ⊢
      cases hcollection : source.type.isCollection with
      | true => exact htype.congr rfl (StaticType.nonNull_nonNull _).symm
      | false =>
          rw [hcollection] at hbefore
          exact hbefore
    rw [← Expr.inPlace_type hsound] at hplace
    exact hplace.congr rfl (StaticType.nonNull_nonNull _)
  · rw [h.result_eq_self (Bool.eq_false_iff.mpr hexpands), Expr.type]
    exact ⟨Expr.isSound_subquery _, htype⟩

/-- The subqueries in what takes the place of a subquery fit if its expanded
clauses do. -/
theorem fits_of_holds {inner : QueryModel}
    (h : nested.Becomes limit budget nested' source result)
    (hnested : nested.Lowers registry limit depth) (hfits : nested'.Fits)
    (hinner : result.Holds inner) : inner.Fits := by
  by_cases hexpands : source.expands nested'.sourceNames = true
  · have hbranch := Expr.isBranch nested'.sourceNames (h.isSound_of_expands hexpands)
    obtain ⟨part, hpart, hholds⟩ := (h.holds_iff_of_expands hexpands).mp hinner
    have hpartLowers := hbranch.lowers_of_mem_parts (h.source_lowers hnested) hpart
    have hwhole : part.expr.Holds inner → inner.Fits := by
      intro hholds
      exact (Expr.lowers_subquery_iff.mp (hpartLowers.of_holds hholds)).2.fits
    cases part with
    | hoisted e => exact hwhole hholds
    | leftOut e => exact hwhole hholds
    | wrapped e =>
        obtain rfl : inner = nested'.withSource e := hholds
        exact hfits.congr rfl
  · rw [h.result_eq_self (Bool.eq_false_iff.mpr hexpands)] at hinner
    obtain rfl := Expr.holds_subquery.mp hinner
    exact hfits

/-- What takes the place of a subquery can be lowered if the subquery can with
its clauses expanded. -/
theorem lowers (hjudges : registry.JudgesByCount)
    (h : nested.Becomes limit budget nested' source result) (hdepth : depth < limit)
    (hnested' : nested'.Lowers registry limit (depth + 1)) :
    result.Lowers registry limit depth := by
  by_cases hexpands : source.expands nested'.sourceNames = true
  · have hsource : source.Lowers registry limit (depth + 1) :=
      (lowers_iff.mp hnested').2.1 source (by simp [sourceExpressions, h.source_eq])
    rw [h.result_eq, if_pos hexpands]
    exact (Expr.isBranch _ hsource.isSound).inPlace_lowers hjudges hnested' hdepth hsource
  · rw [h.result_eq_self (Bool.eq_false_iff.mpr hexpands)]
    exact Expr.lowers_subquery_iff.mpr ⟨hdepth, hnested'⟩

end QueryModel.Becomes

/-! ## The expansion of a model that can be lowered -/

/-- What can be lowered can be expanded. The induction is on how deep subqueries
may nest: lowering counts up to the limit while the expansion counts down. -/
theorem QueryModel.Lowers.isAcceptable (h : model.Lowers registry limit depth)
    (hbudget : limit ≤ depth + budget) : model.IsAcceptable budget := by
  induction budget generalizing model depth with
  | zero =>
      refine isAcceptable_iff.mpr ⟨fun e he => ?_, fun nested hnests => ?_⟩
      · exact Expr.isSound_iff_isWellBranched.mp ((lowers_iff.mp h).2.2.1 e he).isSound
      · have hdepth := (h.nests hnests).1
        omega
  | succ budget ih =>
      refine isAcceptable_iff.mpr ⟨fun e he => ?_, fun nested hnests => ?_⟩
      · exact Expr.isSound_iff_isWellBranched.mp ((lowers_iff.mp h).2.2.1 e he).isSound
      · obtain ⟨-, hnested⟩ := h.nests hnests
        obtain ⟨query, hquery⟩ := hnested
        obtain ⟨source, hsource, hlower⟩ := hquery.source
        have hsound : source.IsSound := Expr.Lowers.isSound ⟨_, hlower⟩
        exact ⟨budget, rfl,
          ⟨source, hsource, fun _ => Expr.isSound_iff_isWellBranched.mp hsound⟩,
          ih ⟨query, hquery⟩ (by omega)⟩

/-- Where all branches still fit, the expanded model can be lowered like the model
itself. The induction is on how deep subqueries may nest. -/
theorem expandWithin_lowers (hjudges : registry.JudgesByCount)
    (hmodel : model.Lowers registry limit depth)
    (hexpand : (model.expandWithin limit budget).outcome = .ok model') (hfits : model'.Fits) :
    model'.Lowers registry limit depth := by
  induction budget using Nat.strongRecOn generalizing model model' depth with
  | ind budget ih =>
      have hrelated :=
        (@expandWithin_reaches_iff limit budget model model' Success.anyhow).mp hexpand
      refine hrelated.lowers hmodel fun e' he' => ?_
      obtain ⟨e, he, -, hreplaced⟩ := exists_left_of_forall₂ hrelated.clauseExpressions he'
      refine hreplaced.lowers hjudges ((QueryModel.lowers_iff.mp hmodel).2.2.1 e he)
        (hfits model' .refl e' he') fun nested result hholds hresult => ?_
      have hnests : model.Nests nested := ⟨e, he, hholds⟩
      obtain ⟨hdepth, hnested⟩ := hmodel.nests hnests
      obtain ⟨left, nested', source, hbudget, hbecomes⟩ := replacement_outcome_iff.mp hresult
      -- the clauses of the subquery are those of a subquery of the expanded model
      have hfits' : nested'.Fits := by
        obtain ⟨copy, hcopy, hclauses⟩ := hbecomes.exists_copy
        have hinner := hnests.of_becomes hexpand hbudget hbecomes copy hcopy
        exact ((QueryModel.fits_iff.mp hfits).2 copy hinner).congr hclauses.symm
      exact hbecomes.lowers hjudges hdepth
        (ih left (by omega) hnested hbecomes.expandWithin_eq hfits')

/-- Where every subquery keeps its place, all branches still fit. The induction is
on how deep subqueries may nest. -/
theorem expandWithin_fits (hmodel : model.Lowers registry limit depth)
    (hkeeps : ∀ nested, TransGen QueryModel.Nests model nested → nested.KeepsItsPlace)
    (hexpand : (model.expandWithin limit budget).outcome = .ok model') :
    model'.Fits ∧ model.resultType.ReplaceableBy model'.resultType := by
  induction budget using Nat.strongRecOn generalizing model model' depth with
  | ind budget ih =>
      have hrelated :=
        (@expandWithin_reaches_iff limit budget model model' Success.anyhow).mp hexpand
      have hnested : ∀ {nested nested' : QueryModel} {source result : Expr} {left : Nat},
          model.Nests nested → budget = left + 1 →
          nested.Becomes limit left nested' source result →
            nested'.Fits ∧ nested.resultType.ReplaceableBy nested'.resultType := by
        intro nested nested' source result left hnests hbudget hbecomes
        exact ih left (by omega) (hmodel.nests hnests).2
          (fun inner hinner => hkeeps inner (.head hnests hinner)) hbecomes.expandWithin_eq
      have hclause : ∀ e ∈ model.clauseExpressions, ∀ e', e.IsSound ∧
          e.Replaced (fun nested result =>
            (Expansion.replacement limit budget nested).outcome = .ok result) e' →
            e'.IsSound ∧ e.type.ReplaceableBy e'.type := by
        intro e he e' h
        obtain ⟨hsound, hreplaced⟩ := h
        refine hreplaced.replaceableBy hsound fun nested result hholds hresult => ?_
        have hnests : model.Nests nested := ⟨e, he, hholds⟩
        obtain ⟨left, nested', source, hbudget, hbecomes⟩ := replacement_outcome_iff.mp hresult
        exact hbecomes.replaceableBy (hkeeps nested (.single hnests))
          (hnested hnests hbudget hbecomes).2
      constructor
      · refine QueryModel.fits_iff.mpr ⟨?_, ?_⟩
        · intro e' he'
          obtain ⟨e, he, h⟩ := exists_left_of_forall₂ hrelated.clauseExpressions he'
          exact (hclause e he e' h).1
        · intro inner hinner
          obtain ⟨nested, left, nested', source, result, hnests, hbudget, hbecomes, hholds, -⟩ :=
            QueryModel.Nests.of_expanded hexpand hinner
          exact hbecomes.fits_of_holds (hmodel.nests hnests).2
            (hnested hnests hbudget hbecomes).1 hholds
      · refine hrelated.resultType_of .refl .collection fun e he e' h => ?_
        exact (hclause e (QueryModel.mem_clauseExpressions.mpr (.inl he)) e' h).2

end

/-! ## Both stages -/

/-- A model that can be lowered can be expanded. The expanded model has branches
that fit wherever subqueries are replaced by what fits in their place. With
handlers that judge a call by the number of its operands, this is all that
matters: the model can be compiled exactly if the branches of the expanded model
fit. -/
theorem compile_iff_fits {registry : Registry} {limit : Nat} {model : QueryModel} {query : Query}
    (hquery : (model.toQuery registry limit).outcome = .ok query) :
    ∃ expanded, (model.expand limit).outcome = .ok expanded ∧
      ((∀ nested, TransGen QueryModel.Nests model nested → nested.KeepsItsPlace) →
        expanded.Fits) ∧
      (registry.JudgesByCount →
        ((∃ compiled, (model.compile registry limit).outcome = .ok compiled) ↔
          expanded.Fits)) := by
  have hmodel : model.Lowers registry limit 0 := ⟨query, QueryModel.lower_eq_ok_iff.mp hquery⟩
  have hacceptable : model.IsAcceptable limit := hmodel.isAcceptable (by omega)
  obtain ⟨expanded, hexpand⟩ := exists_expandWithin_iff.mpr hacceptable
  refine ⟨expanded, hexpand, fun hkeeps => (expandWithin_fits hmodel hkeeps hexpand).1, ?_⟩
  intro hjudges
  constructor
  · intro h
    obtain ⟨compiled, hcompile⟩ := h
    obtain ⟨hsame, hlower⟩ := compile_outcome_iff.mp hcompile
    obtain rfl : expanded = compiled.model := Except.ok.inj (hexpand.symm.trans hsame)
    exact QueryModel.Lowers.fits ⟨_, QueryModel.lower_eq_ok_iff.mp hlower⟩
  · intro hfits
    obtain ⟨query', hquery'⟩ := expandWithin_lowers hjudges hmodel hexpand hfits
    exact ⟨⟨expanded, query'⟩,
      compile_outcome_iff.mpr ⟨hexpand, QueryModel.lower_eq_ok_iff.mpr hquery'⟩⟩

/-! ### A source that leads with a number -/

/-- A number, or else some lines or none. The null constant is untyped, so the
number and the lines may stand in one source. -/
def numberOrLines : Expr :=
  .conditional (orderProperty "Open" .boolean) (some (.constant (.integer 0)))
    (some (.conditional (orderProperty "Held" .boolean) (some (.constant .null))
      (some (orderLines "Lines"))))

/-- For a paid order the subquery, and else the other branch. -/
def ifPaid (nested : QueryModel) (otherwise : Expr) : QueryModel :=
  perOrder (.conditional (orderProperty "Paid" .boolean) (some (.subquery nested))
    (some otherwise))

/-- A count keeps its place, since the number in its source is of its type. -/
theorem countOfNumberOrLines_compile :
    (∃ query, ((ifPaid (countLines numberOrLines) (.constant (.integer 7))).toQuery .withDefaults
        8).outcome = .ok query) ∧
      ∃ compiled, ((ifPaid (countLines numberOrLines) (.constant (.integer 7))).compile
        .withDefaults 8).outcome = .ok compiled := by
  have hlowers : ∃ query, ((ifPaid (countLines numberOrLines)
      (.constant (.integer 7))).toQuery .withDefaults 8).outcome = .ok query := ⟨_, rfl⟩
  refine ⟨hlowers, ?_⟩
  obtain ⟨query, hquery⟩ := hlowers
  obtain ⟨expanded, -, hfits, hcompile⟩ := compile_iff_fits hquery
  refine (hcompile Registry.withDefaults_isPlain.judgesByCount).mpr (hfits ?_)
  intro nested hnested
  have hreached : nested = countLines numberOrLines := by
    refine eq_of_transGen_perOrder ?_ ?_ hnested
    · intro next hholds
      simpa [orderProperty, eq_comm] using hholds
    · intro deeper hdeeper
      obtain ⟨e, he, -⟩ := hdeeper
      cases he
  subst hreached
  refine QueryModel.keepsItsPlace_iff.mpr fun source hsource _ => ?_
  obtain rfl := Option.some.inj hsource
  exact .inr (.inr (by decide))

/-- The name of the first line. -/
def nameOfFirst (source : Expr) : QueryModel :=
  { QueryModel.ofSource "l" (.entity "Line") source with
    selector := some (.member (.source "l" (.entity "Line")) "Name" .string)
    operators := [.first] }

/-- A name does not: with the number in its place it fits beside no other text. -/
theorem nameOfNumberOrLines_compile :
    (∃ query, ((ifPaid (nameOfFirst numberOrLines) (.constant (.string "none"))).toQuery
        .withDefaults 8).outcome = .ok query) ∧
      ((ifPaid (nameOfFirst numberOrLines) (.constant (.string "none"))).compile .withDefaults
        8).outcome = .error (.lowering (.malformed (.incompatibleBranches .integer .string))) :=
  ⟨⟨_, rfl⟩, rfl⟩

end ObjectQuery
