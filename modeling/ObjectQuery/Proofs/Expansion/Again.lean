import ObjectQuery.Proofs.Expansion.Basic

/-!
# Expanding a second time

A model is left alone by the expansion exactly if its clause expressions are
sound and each subquery in them nests within the limit, is left alone
itself, and reads from no source that is to be expanded. After an expansion
all of this has to hold once more.

It can fail in two ways only. The expansion does not look into the sources
of subqueries, but it moves parts of them out: the tests, the left operands
of coalesces and the branches that are left out. What is moved out becomes
part of a clause and is expanded the second time, or found to be nested too
deep. And a subquery may change its type when it is replaced, so that a
branching node around it is refused the second time.

## Main definitions

* `QueryModel.Exposes` — an expression is moved out of a source.
* `QueryModel.Fits` — the branches of all nodes that the expansion looks at
  fit.

## Main results

* `expandWithin_again_iff` — an expanded model is left alone exactly if its
  branches still fit and what was moved out is left alone.
-/

namespace ObjectQuery

open Traced (Success)
open Relation (ReflTransGen)

variable {limit budget : Nat} {model model' : QueryModel}

/-- The part of a source becomes part of a clause. -/
inductive SourcePart.IsExposed : SourcePart → Expr → Prop
  | hoisted (e) : IsExposed (.hoisted e) e
  | leftOut (e) : IsExposed (.leftOut e) e

/-- While a model is expanded in which subqueries may nest `budget` deep, an
expression becomes part of a clause in which they may nest `left` deep. -/
inductive QueryModel.Exposes : (budget : Nat) → QueryModel → (left : Nat) → Expr → Prop
  | here {budget model nested source part e} : model.Nests nested →
    nested.source = some source → source.expands nested.sourceNames = true →
    part ∈ source.parts nested.sourceNames → part.IsExposed e →
    Exposes (budget + 1) model (budget + 1) e
  | inside {budget model nested left e} : model.Nests nested →
    Exposes budget nested left e → Exposes (budget + 1) model left e

/-- All branching nodes that the expansion of a model looks at are sound. -/
def QueryModel.Fits (model : QueryModel) : Prop :=
  ∀ nested, ReflTransGen QueryModel.Nests model nested →
    ∀ e ∈ nested.clauseExpressions, e.IsSound

/-! ## Models that fit -/

theorem QueryModel.fits_iff :
    model.Fits ↔ (∀ e ∈ model.clauseExpressions, e.IsSound) ∧
      ∀ nested, model.Nests nested → nested.Fits := by
  constructor
  · intro h
    refine ⟨h model .refl, ?_⟩
    intro nested hnested inner hinner
    exact h inner (.head hnested hinner)
  · intro h nested hnested
    obtain ⟨hsound, hfits⟩ := h
    rcases Relation.ReflTransGen.cases_head hnested with rfl | ⟨next, hnext, hinner⟩
    · exact hsound
    · exact hfits next hnext nested hinner

/-- Whether a model fits is decided by its clause expressions. -/
theorem QueryModel.Fits.congr (h : model.Fits)
    (hclauses : model'.clauseExpressions = model.clauseExpressions) : model'.Fits := by
  obtain ⟨hsound, hnested⟩ := fits_iff.mp h
  refine fits_iff.mpr ⟨?_, ?_⟩
  · rw [hclauses]
    exact hsound
  · intro nested hnests
    unfold Nests at hnests
    rw [hclauses] at hnests
    exact hnested nested hnests

/-- A model that is left alone fits. -/
theorem fits_of_expandWithin_eq_pure (h : model.expandWithin limit budget = pure model) :
    model.Fits := by
  induction budget generalizing model with
  | zero =>
      have halone := expandWithin_eq_pure_iff.mp h
      refine QueryModel.fits_iff.mpr ⟨?_, ?_⟩
      · intro e he
        exact (isLeftAlone_iff.mp (halone e he)).1
      · intro nested hnests
        obtain ⟨e, he, hholds⟩ := hnests
        exact absurd ((isLeftAlone_iff.mp (halone e he)).2 nested hholds) not_stays_zero
  | succ budget ih =>
      have halone := expandWithin_eq_pure_iff.mp h
      refine QueryModel.fits_iff.mpr ⟨?_, ?_⟩
      · intro e he
        exact (isLeftAlone_iff.mp (halone e he)).1
      · intro nested hnests
        obtain ⟨e, he, hholds⟩ := hnests
        have hstays := (isLeftAlone_iff.mp (halone e he)).2 nested hholds
        exact ih (stays_succ_iff.mp hstays).1

/-! ## What takes the place of a subquery -/

namespace QueryModel.Becomes

variable {nested nested' inner : QueryModel} {source result : Expr}

/-- The subqueries in what takes the place of an expanded subquery. -/
theorem holds_iff_of_expands (h : nested.Becomes limit budget nested' source result)
    (hexpands : source.expands nested'.sourceNames = true) :
    result.Holds inner ↔
      ∃ part ∈ source.parts nested'.sourceNames, part.Holds nested' inner := by
  rw [h.result_eq, if_pos hexpands]
  exact inPlace_holds_iff (Expr.isBranch _ (h.isSound_of_expands hexpands))

/-- Some subquery with the expanded clauses stands in what takes the place of
a subquery. -/
theorem exists_copy (h : nested.Becomes limit budget nested' source result) :
    ∃ copy, result.Holds copy ∧ copy.clauseExpressions = nested'.clauseExpressions := by
  by_cases hexpands : source.expands nested'.sourceNames = true
  · have hbranch := Expr.isBranch nested'.sourceNames (h.isSound_of_expands hexpands)
    obtain ⟨w, hw⟩ := hbranch.exists_wrapped (by rw [branchExpands, hexpands, Bool.true_or])
    exact ⟨nested'.withSource w, (h.holds_iff_of_expands hexpands).mpr ⟨_, hw, rfl⟩, rfl⟩
  · rw [h.result_eq_self (Bool.eq_false_iff.mpr hexpands)]
    exact ⟨nested', by simp, rfl⟩

/-- The subqueries in what takes the place of a subquery stay, where its
clauses are left alone and what was moved out of its source is too. -/
theorem stays_of_holds (h : nested.Becomes limit budget nested' source result)
    (halone : nested'.expandWithin limit budget = pure nested')
    (hexposed : ∀ part ∈ source.parts nested'.sourceNames, ∀ e, part.IsExposed e →
      source.expands nested'.sourceNames = true → e.IsLeftAlone limit (budget + 1))
    (hinner : result.Holds inner) : inner.Stays limit (budget + 1) := by
  by_cases hexpands : source.expands nested'.sourceNames = true
  · have hsound := h.isSound_of_expands hexpands
    have hbranch := Expr.isBranch nested'.sourceNames hsound
    obtain ⟨part, hpart, hholds⟩ := (h.holds_iff_of_expands hexpands).mp hinner
    cases part with
    | hoisted e =>
        exact (isLeftAlone_iff.mp (hexposed _ hpart e (.hoisted e) hexpands)).2 inner hholds
    | leftOut e =>
        exact (isLeftAlone_iff.mp (hexposed _ hpart e (.leftOut e) hexpands)).2 inner hholds
    | wrapped w =>
        obtain rfl : inner = nested'.withSource w := hholds
        refine stays_succ_iff.mpr ⟨?_, w, rfl, ?_, ?_⟩
        · have hclauses : ∀ e ∈ nested'.clauseExpressions, e.IsLeftAlone limit budget :=
            expandWithin_eq_pure_iff.mp halone
          exact expandWithin_eq_pure_iff.mpr hclauses
        · intro _
          exact hbranch.isSound_of_mem_parts hpart
        · exact hbranch.expands_of_wrapped hpart
  · have hstays := Bool.eq_false_iff.mpr hexpands
    rw [h.result_eq_self hstays] at hinner
    obtain rfl := Expr.holds_subquery.mp hinner
    exact stays_succ_iff.mpr ⟨halone, source, h.source_eq, h.isSound, hstays⟩

end QueryModel.Becomes

/-! ## The second expansion -/

section

variable (hexpand : (model.expandWithin limit budget).outcome = .ok model')

include hexpand

/-- What takes the place of a subquery of the model stands in the expanded
model. -/
theorem QueryModel.Nests.exists_becomes {nested : QueryModel} (hnests : model.Nests nested) :
    ∃ left nested' source result, budget = left + 1 ∧
      nested.Becomes limit left nested' source result ∧
        ∀ inner, result.Holds inner → model'.Nests inner := by
  have hrelated :=
    (@expandWithin_reaches_iff limit budget model model' Success.anyhow).mp hexpand
  obtain ⟨e, he, hholds⟩ := hnests
  obtain ⟨e', he', -, hreplaced⟩ := exists_right_of_forall₂ hrelated.clauseExpressions he
  obtain ⟨result, hresult, hinner⟩ := hreplaced.exists_result hholds
  obtain ⟨left, nested', source, hbudget, hbecomes⟩ := replacement_outcome_iff.mp hresult
  exact ⟨left, nested', source, result, hbudget, hbecomes, fun inner h =>
    ⟨e', he', hinner inner h⟩⟩

/-- All that takes the place of a subquery is in the expanded model. -/
theorem QueryModel.Nests.of_becomes {nested nested' : QueryModel} {source result : Expr}
    {left : Nat} (hnests : model.Nests nested) (hbudget : budget = left + 1)
    (hbecomes : nested.Becomes limit left nested' source result) (inner : QueryModel)
    (hinner : result.Holds inner) : model'.Nests inner := by
  obtain ⟨left', nested'', source', other, hbudget', hbecomes', hall⟩ :=
    hnests.exists_becomes hexpand
  have hresult := replacement_outcome_iff.mpr ⟨left, nested', source, hbudget, hbecomes⟩
  have hother := replacement_outcome_iff.mpr ⟨left', nested'', source', hbudget', hbecomes'⟩
  obtain rfl : result = other := Except.ok.inj (hresult.symm.trans hother)
  exact hall inner hinner

/-- Every subquery of the expanded model stands in what has taken the place of
a subquery of the model, and all of that is in the expanded model. -/
theorem QueryModel.Nests.of_expanded {inner : QueryModel} (hnests : model'.Nests inner) :
    ∃ nested left nested' source result, model.Nests nested ∧ budget = left + 1 ∧
      nested.Becomes limit left nested' source result ∧ result.Holds inner ∧
        ∀ other, result.Holds other → model'.Nests other := by
  have hrelated :=
    (@expandWithin_reaches_iff limit budget model model' Success.anyhow).mp hexpand
  obtain ⟨e', he', hholds⟩ := hnests
  obtain ⟨e, he, -, hreplaced⟩ := exists_left_of_forall₂ hrelated.clauseExpressions he'
  obtain ⟨nested, result, hnested, hresult, hinner⟩ := hreplaced.holds_of_replaced hholds
  obtain ⟨other, hother, hall⟩ := hreplaced.exists_result hnested
  obtain rfl : result = other := Except.ok.inj (hresult.symm.trans hother)
  obtain ⟨left, nested', source, hbudget, hbecomes⟩ := replacement_outcome_iff.mp hresult
  exact ⟨nested, left, nested', source, result, ⟨e, he, hnested⟩, hbudget, hbecomes, hinner,
    fun other h => ⟨e', he', hall other h⟩⟩

end

/-- An expanded model is left alone by a second expansion exactly if its
branches still fit and everything that was moved out of a source is left
alone. The induction is on how deep subqueries may nest. -/
theorem expandWithin_again_iff (hexpand : (model.expandWithin limit budget).outcome = .ok model') :
    model'.expandWithin limit budget = pure model' ↔
      model'.Fits ∧ ∀ left e, model.Exposes budget left e → e.IsLeftAlone limit left := by
  induction budget generalizing model model' with
  | zero =>
      constructor
      · intro halone
        refine ⟨fits_of_expandWithin_eq_pure halone, ?_⟩
        intro left e hexposes
        cases hexposes
      · intro h
        refine expandWithin_eq_pure_iff.mpr fun e he => isLeftAlone_iff.mpr ⟨h.1 _ .refl e he, ?_⟩
        intro inner hinner
        obtain ⟨_, _, _, _, _, _, hbudget, _⟩ :=
          QueryModel.Nests.of_expanded hexpand ⟨e, he, hinner⟩
        cases hbudget
  | succ budget ih =>
      constructor
      · intro halone
        have hstays : ∀ inner, model'.Nests inner → inner.Stays limit (budget + 1) := by
          intro inner hnests
          obtain ⟨e, he, hholds⟩ := hnests
          exact (isLeftAlone_iff.mp (expandWithin_eq_pure_iff.mp halone e he)).2 inner hholds
        refine ⟨fits_of_expandWithin_eq_pure halone, ?_⟩
        intro left e hexposes
        cases hexposes with
        | @here _ _ nested source part _ hnests hsource hexpands hpart hexposed =>
            obtain ⟨left, nested', source', result, hbudget, hbecomes, hresult⟩ :=
              hnests.exists_becomes hexpand
            obtain ⟨hsame, hnames⟩ := expandWithin_source hbecomes.expandWithin_eq
            obtain rfl : source' = source := by
              rw [hbecomes.source_eq, hsource] at hsame
              exact Option.some.inj hsame
            rw [← hnames] at hexpands hpart
            have hbranch := Expr.isBranch nested'.sourceNames
              (hbecomes.isSound_of_expands hexpands)
            have hsound := hbranch.isSound_of_mem_parts hpart
            -- what the part holds stands in the expanded model, so it stays
            have hinner : ∀ inner, part.Holds nested' inner → inner.Stays limit (budget + 1) :=
              fun inner hholds => hstays inner <| hresult inner <|
                (hbecomes.holds_iff_of_expands hexpands).mpr ⟨part, hpart, hholds⟩
            cases hexposed with
            | hoisted => exact isLeftAlone_iff.mpr ⟨hsound, hinner⟩
            | leftOut => exact isLeftAlone_iff.mpr ⟨hsound, hinner⟩
        | @inside _ _ nested _ _ hnests hinside =>
            obtain ⟨left', nested', source, result, hbudget, hbecomes, hresult⟩ :=
              hnests.exists_becomes hexpand
            obtain rfl : budget = left' := Nat.succ.inj hbudget
            obtain ⟨copy, hcopy, hclauses⟩ := hbecomes.exists_copy
            have hcopyAlone := (stays_succ_iff.mp (hstays copy (hresult copy hcopy))).1
            have halone' : nested'.expandWithin limit budget = pure nested' := by
              rw [expandWithin_eq_pure_iff, hclauses] at hcopyAlone
              exact expandWithin_eq_pure_iff.mpr hcopyAlone
            exact ((ih hbecomes.expandWithin_eq).mp halone').2 left e hinside
      · intro h
        obtain ⟨hfits, hexposed⟩ := h
        refine expandWithin_eq_pure_iff.mpr fun e he => isLeftAlone_iff.mpr
          ⟨hfits _ .refl e he, ?_⟩
        intro inner hinner
        obtain ⟨nested, left, nested', source, result, hnests, hbudget, hbecomes, hholds, hall⟩ :=
          QueryModel.Nests.of_expanded hexpand ⟨e, he, hinner⟩
        obtain rfl : budget = left := Nat.succ.inj hbudget
        obtain ⟨hsame, hnames⟩ := expandWithin_source hbecomes.expandWithin_eq
        have hfits' : nested'.Fits := by
          obtain ⟨copy, hcopy, hclauses⟩ := hbecomes.exists_copy
          have hfitsCopy := (QueryModel.fits_iff.mp hfits).2 copy (hall copy hcopy)
          exact hfitsCopy.congr hclauses.symm
        have halone' : nested'.expandWithin limit budget = pure nested' :=
          (ih hbecomes.expandWithin_eq).mpr
            ⟨hfits', fun left e hinside => hexposed left e (.inside hnests hinside)⟩
        refine hbecomes.stays_of_holds halone' ?_ hholds
        intro part hpart c hc hexpands
        rw [hnames] at hpart hexpands
        exact hexposed _ c (.here hnests (hsame.symm.trans hbecomes.source_eq) hexpands hpart hc)

/-- Expanding an expanded model succeeds, changes nothing and leaves no trace
exactly if its branches still fit and everything that was moved out of a
source is left alone. -/
theorem expand_again_iff {limit : Nat} {model model' : QueryModel}
    (hexpand : (model.expand limit).outcome = .ok model') :
    model'.expand limit = ⟨[], .ok model'⟩ ↔
      model'.Fits ∧ ∀ left e, model.Exposes limit left e → e.IsLeftAlone limit left :=
  expandWithin_again_iff hexpand

/-! ### A model that is expanded twice -/

/-- A property of the order that the queries below range over. -/
def orderProperty (name : String) (type : StaticType) : Expr :=
  .member (.source "o" (.entity "Order")) name type

/-- The lines of an order. -/
def orderLines (name : String) : Expr :=
  orderProperty name (.collection (.entity "Line"))

/-- Whether one of two collections has a line. -/
def anyLine (source : Expr) : QueryModel :=
  { QueryModel.ofSource "x" (.entity "Line") source with operators := [.any] }

/-- The number of lines in one of two collections. -/
def countLines (source : Expr) : QueryModel :=
  { QueryModel.ofSource "l" (.entity "Line") source with operators := [.count] }

/-- A selection from all orders. -/
def perOrder (selector : Expr) : QueryModel :=
  { QueryModel.ofSource "o" (.entity "Order") (.constant (.queryable "Order")) with
    selector := some selector }

/-- Whether the collection that a flag selects has a line. -/
def anySelectedLine : Expr :=
  .subquery (anyLine (.conditional (orderProperty "Paid" .boolean)
    (some (orderLines "Lines")) (some (orderLines "Archived"))))

/-- A count whose source is decided by a subquery, which itself reads from one
of two branches. -/
def countWithSubqueryTest : QueryModel :=
  perOrder (.subquery (countLines (.conditional anySelectedLine
    (some (orderLines "Lines")) (some (orderLines "Archived")))))

/-- The expansion of `countWithSubqueryTest`: the test was moved out of the
source as it was. -/
def countWithHoistedTest : QueryModel :=
  perOrder (.conditional anySelectedLine (some (.subquery (countLines (orderLines "Lines"))))
    (some (.subquery (countLines (orderLines "Archived")))))

private theorem expand_countWithSubqueryTest :
    (countWithSubqueryTest.expand 8).outcome = .ok countWithHoistedTest := rfl

/-- The expanded model is changed by a second expansion, which finds the
subquery in the test. -/
theorem expand_countWithHoistedTest :
    (countWithSubqueryTest.expand 8).outcome = .ok countWithHoistedTest ∧
      (countWithHoistedTest.expand 8).events.length = 1 ∧
      countWithHoistedTest.expand 8 ≠ ⟨[], .ok countWithHoistedTest⟩ := by
  have hevents : (countWithHoistedTest.expand 8).events.length = 1 := rfl
  refine ⟨rfl, hevents, ?_⟩
  intro h
  rw [h] at hevents
  cases hevents

/-- The test that was moved out is not left alone. -/
theorem countWithSubqueryTest_exposes :
    (countWithSubqueryTest.expand 8).outcome = .ok countWithHoistedTest ∧
      ¬(countWithHoistedTest.Fits ∧
        ∀ left e, countWithSubqueryTest.Exposes 8 left e → e.IsLeftAlone 8 left) := by
  refine ⟨expand_countWithSubqueryTest, ?_⟩
  intro h
  have hagain := (expand_again_iff expand_countWithSubqueryTest).mpr h
  have hevents : (countWithHoistedTest.expand 8).events.length = 1 := rfl
  rw [hagain] at hevents
  cases hevents

end ObjectQuery
