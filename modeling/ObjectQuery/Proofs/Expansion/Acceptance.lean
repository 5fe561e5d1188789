import ObjectQuery.Proofs.Expansion.Again

/-!
# Which models are accepted

The expansion looks at a tree in two ways. It goes through the clause
expressions of a model and of the subqueries in them, and it goes through the
source of a subquery where that source is a decision. Both ways it checks the
branches of every node, and the second way it checks the branches of a node
once more after they have been taken apart.

What is accepted can be read off the tree as it was before. The second check
does not count: whatever becomes of a branch, it keeps its type, or it gets
the type of the subquery and was a collection. Two branches that fitted are
either both collections, and then have one type, or keep their types, or one
of them is untyped and fits beside anything.

## Main definitions

* `QueryModel.IsAcceptable` — what the expansion asks of a model.
* `SourceNode.ComesFrom` — what may become of a branch.

## Main results

* `exists_expandWithin_iff` — exactly the acceptable models are expanded.
* `takeApart_comesFrom` — what may become of a branch, whichever of its parts
  are nominated.
* `rebuilt_ok_of_runs` — the second check does not fail.
-/

namespace ObjectQuery

open Traced (Success)

/-! ## Branches that fit -/

/-- Both branches are there, and their types are compatible. -/
def BranchesFit (left right : Option Expr) : Prop :=
  ∃ a b, left = some a ∧ right = some b ∧ a.type.isCompatible b.type = true

/-- Every conditional and every coalesce in the expression, those inside of
subqueries aside, has branches that fit. -/
structure Expr.IsWellBranched (e : Expr) : Prop where
  conditional : ∀ test whenTrue whenFalse,
    .conditional test whenTrue whenFalse ∈ e.visits → BranchesFit whenTrue whenFalse
  coalesce : ∀ left right, .coalesce left right ∈ e.visits → BranchesFit left right

theorem checkBranches_eq_ok_iff_branchesFit {leftSide rightSide : BranchSide}
    {left right : Option Expr} :
    checkBranches leftSide rightSide left right = .ok () ↔ BranchesFit left right := by
  rw [checkBranches_eq_ok_iff]
  simp only [Expr.fitsBeside_eq]
  rfl

theorem Expr.isSound_iff_isWellBranched {e : Expr} : e.IsSound ↔ e.IsWellBranched := by
  constructor
  · intro h
    refine ⟨?_, ?_⟩
    · intro test whenTrue whenFalse hnode
      exact checkBranches_eq_ok_iff_branchesFit.mp (h _ hnode)
    · intro left right hnode
      exact checkBranches_eq_ok_iff_branchesFit.mp (h _ hnode)
  · intro h node hnode
    cases node with
    | conditional test whenTrue whenFalse =>
        exact checkBranches_eq_ok_iff_branchesFit.mpr
          (h.conditional test whenTrue whenFalse hnode)
    | coalesce left right =>
        exact checkBranches_eq_ok_iff_branchesFit.mpr (h.coalesce left right hnode)
    | _ => rfl

/-! ## Acceptable models -/

/-- The subquery stands in a clause of the model, in so many further
subqueries that stand in clauses of one another. -/
inductive QueryModel.NestsAt : (depth : Nat) → QueryModel → QueryModel → Prop
  | here {model nested} : model.Nests nested → NestsAt 0 model nested
  | deeper {depth model between nested} : model.Nests between →
    NestsAt depth between nested → NestsAt (depth + 1) model nested

/-- The clause expressions of the model have branches that fit. -/
def QueryModel.HasFittingClauses (model : QueryModel) : Prop :=
  ∀ e ∈ model.clauseExpressions, e.IsWellBranched

/-- The model has a source; if that is a decision, its branches fit. -/
def QueryModel.HasFittingSource (model : QueryModel) : Prop :=
  ∃ source, model.source = some source ∧ (source.isBranching = true → source.IsWellBranched)

/-- What the expansion asks of a model, where subqueries may nest `limit`
deep. -/
structure QueryModel.IsAcceptable (limit : Nat) (model : QueryModel) : Prop where
  clauses : model.HasFittingClauses
  nested : ∀ depth nested, model.NestsAt depth nested →
    depth < limit ∧ nested.HasFittingSource ∧ nested.HasFittingClauses

section

variable {limit budget : Nat} {model : QueryModel}

/-- A model is acceptable if its clauses are and its subqueries are, for which
there is one level less. -/
theorem QueryModel.isAcceptable_iff :
    model.IsAcceptable budget ↔ model.HasFittingClauses ∧
      ∀ nested, model.Nests nested →
        ∃ left, budget = left + 1 ∧ nested.HasFittingSource ∧ nested.IsAcceptable left := by
  constructor
  · intro h
    refine ⟨h.clauses, ?_⟩
    intro nested hnests
    obtain ⟨hdepth, hsource, hclauses⟩ := h.nested 0 nested (.here hnests)
    obtain ⟨left, rfl⟩ : ∃ left, budget = left + 1 := ⟨budget - 1, by omega⟩
    refine ⟨left, rfl, hsource, hclauses, ?_⟩
    intro depth inner hinner
    obtain ⟨hless, hrest⟩ := h.nested (depth + 1) inner (.deeper hnests hinner)
    exact ⟨Nat.lt_of_succ_lt_succ hless, hrest⟩
  · rintro ⟨hclauses, hnested⟩
    refine ⟨hclauses, ?_⟩
    intro depth inner hinner
    cases hinner with
    | here hnests =>
        obtain ⟨left, rfl, hsource, hacceptable⟩ := hnested inner hnests
        exact ⟨Nat.succ_pos left, hsource, hacceptable.clauses⟩
    | @deeper depth _ between _ hnests hinner =>
        obtain ⟨left, rfl, -, hacceptable⟩ := hnested between hnests
        obtain ⟨hless, hrest⟩ := hacceptable.nested depth inner hinner
        exact ⟨Nat.succ_lt_succ hless, hrest⟩

/-- The expansion of a model succeeds exactly if its clauses fit and each
subquery in them can be replaced. -/
theorem exists_expandWithin_iff_replacement :
    (∃ model', (model.expandWithin limit budget).outcome = .ok model') ↔
      model.HasFittingClauses ∧ ∀ nested, model.Nests nested →
        ∃ result, (Expansion.replacement limit budget nested).outcome = .ok result := by
  have hreaches := fun {model' : QueryModel} =>
    @expandWithin_reaches_iff limit budget model model' Success.anyhow
  constructor
  · intro h
    obtain ⟨model', hexpand⟩ := h
    have hclauses := (hreaches.mp hexpand).clauseExpressions
    constructor
    · intro e he
      obtain ⟨e', -, hsound, -⟩ := exists_right_of_forall₂ hclauses he
      exact Expr.isSound_iff_isWellBranched.mp hsound
    · intro nested hnests
      obtain ⟨e, he, hholds⟩ := hnests
      obtain ⟨e', -, -, hreplaced⟩ := exists_right_of_forall₂ hclauses he
      obtain ⟨result, hresult, -⟩ := hreplaced.exists_result hholds
      exact ⟨result, hresult⟩
  · intro h
    obtain ⟨hclauses, hnested⟩ := h
    have hexpressions : ∀ e ∈ model.clauseExpressions, ∃ e', e.IsSound ∧
        e.Replaced (fun nested result =>
          Success.anyhow.Reaches (Expansion.replacement limit budget nested) result) e' := by
      intro e he
      have hsound := Expr.isSound_iff_isWellBranched.mpr (hclauses e he)
      obtain ⟨e', hreplaced⟩ := Expr.Replaced.exists_of_isSound hsound fun nested hholds =>
        hnested nested ⟨e, he, hholds⟩
      exact ⟨e', hsound, hreplaced⟩
    obtain ⟨model', hrelated⟩ := QueryModel.Related.exists_of_clauseExpressions hexpressions
    exact ⟨model', hreaches.mpr hrelated⟩

/-- A subquery can be replaced exactly if it may stand where it does, its
source fits and its own clauses can be expanded. -/
theorem exists_replacement_iff :
    (∃ result, (Expansion.replacement limit budget model).outcome = .ok result) ↔
      ∃ left, budget = left + 1 ∧ model.HasFittingSource ∧
        ∃ model', (model.expandWithin limit left).outcome = .ok model' := by
  simp only [replacement_outcome_iff]
  constructor
  · intro h
    obtain ⟨result, left, model', source, rfl, hbecomes⟩ := h
    have hsame := (expandWithin_source hbecomes.expandWithin_eq).1
    have hsource : model.HasFittingSource :=
      ⟨source, hsame.symm.trans hbecomes.source_eq, fun hbranching =>
        Expr.isSound_iff_isWellBranched.mp (hbecomes.isSound hbranching)⟩
    exact ⟨left, rfl, hsource, model', hbecomes.expandWithin_eq⟩
  · intro h
    obtain ⟨left, rfl, ⟨source, hsource, hfits⟩, model', hexpand⟩ := h
    have hsame := (expandWithin_source hexpand).1
    exact ⟨_, left, model', source, rfl, hexpand, hsame.trans hsource,
      fun hbranching => Expr.isSound_iff_isWellBranched.mpr (hfits hbranching), rfl⟩

/-- Exactly the acceptable models are expanded. The induction is on how deep
subqueries may nest. -/
theorem exists_expandWithin_iff :
    (∃ model', (model.expandWithin limit budget).outcome = .ok model') ↔
      model.IsAcceptable budget := by
  rw [exists_expandWithin_iff_replacement, QueryModel.isAcceptable_iff]
  simp only [exists_replacement_iff]
  induction budget generalizing model with
  | zero => simp
  | succ budget ih =>
      have hnested : ∀ nested : QueryModel,
          (∃ model', (nested.expandWithin limit budget).outcome = .ok model') ↔
            nested.IsAcceptable budget := by
        intro nested
        rw [exists_expandWithin_iff_replacement, QueryModel.isAcceptable_iff]
        simp only [exists_replacement_iff]
        exact ih
      simp only [Nat.succ.injEq, exists_eq_left', hnested]

end

/-! ## The second check -/

/-- What may become of a branch: it stays as it is, or something in it is
expanded, which gives it its type apart. -/
inductive SourceNode.ComesFrom (model : QueryModel) (e : Expr) : SourceNode → Prop
  | whole : ComesFrom model e ⟨e, false⟩
  | expanded {x} : x.type.nonNull = e.typeApart model → ComesFrom model e ⟨x, true⟩

section

open SourceExpansion (Runs runs_pure runs_bind runs_require runs_of_except runs_suspended
  runs_insideBranch)

variable {model : QueryModel} {e a b : Expr} {node first second : SourceNode}
  {n n' : Nominations}

namespace SourceNode.ComesFrom

/-- Closing a branch keeps its type or gives it its type apart. -/
theorem close (h : node.ComesFrom model e) (nominated : Bool) :
    (node.close model nominated).ComesFrom model e := by
  cases h with
  | expanded htype => exact .expanded htype
  | whole =>
      unfold SourceNode.close
      cases hcollection : e.type.isCollection with
      | false =>
          rw [Bool.and_false, if_neg Bool.false_ne_true]
          exact .whole
      | true =>
          cases nominated with
          | false => exact .whole
          | true =>
              refine .expanded ?_
              rw [QueryModel.reading_type, Expr.typeApart, if_pos hcollection]

/-- A completed branch has its type apart. -/
theorem complete_type (h : node.ComesFrom model e) :
    (node.complete model).type.nonNull = e.typeApart model := by
  cases h with
  | expanded htype => exact htype
  | whole =>
      unfold SourceNode.complete Expr.typeApart
      cases hcollection : e.type.isCollection with
      | true =>
          show (model.reading e).type.nonNull = _
          rw [QueryModel.reading_type, if_pos rfl]
      | false => rfl

/-- Completed branches fit where the branches did. -/
theorem fitsBeside (ha : first.ComesFrom model a) (hb : second.ComesFrom model b)
    (hfit : a.fitsBeside b = true) :
    (first.complete model).fitsBeside (second.complete model) = true := by
  rw [Expr.fitsBeside_eq] at hfit ⊢
  rw [← StaticType.isCompatible_nonNull_left, ← StaticType.isCompatible_nonNull_right,
    ha.complete_type, hb.complete_type]
  exact Expr.isCompatible_typeApart hfit

/-- Two branches side by side are left as they are, or both completed. -/
theorem completeBranches_cases (ha : first.ComesFrom model a) (hb : second.ComesFrom model b) :
    completeBranches model first second = (a, b, false) ∨
      completeBranches model first second =
        (first.complete model, second.complete model, true) := by
  cases ha with
  | expanded => exact .inr rfl
  | whole =>
      cases hb with
      | expanded => exact .inr rfl
      | whole => exact .inl rfl

/-- The second check of a conditional does not fail, and what becomes of the
conditional keeps its type or has its type apart. -/
theorem conditional (ha : first.ComesFrom model a) (hb : second.ComesFrom model b)
    (hfit : a.fitsBeside b = true) (test : Expr) :
    ∃ node, rebuiltConditional model test first second = .ok node ∧
      node.ComesFrom model (.conditional test (some a) (some b)) := by
  unfold rebuiltConditional
  rcases ha.completeBranches_cases hb with hwhole | hcompleted
  · rw [hwhole]
    simp only [checkFit, hfit, if_true]
    exact ⟨_, rfl, .whole⟩
  · rw [hcompleted]
    simp only [checkFit, ha.fitsBeside hb hfit, if_true]
    refine ⟨_, rfl, .expanded ?_⟩
    rw [Expr.type, ha.complete_type, Expr.typeApart, Expr.typeApart, Expr.type]

/-- The same for a coalesce. -/
theorem coalesce (ha : first.ComesFrom model a) (hb : second.ComesFrom model b)
    (hfit : a.fitsBeside b = true) :
    ∃ node, rebuiltCoalesce model a first second = .ok node ∧
      node.ComesFrom model (.coalesce (some a) (some b)) := by
  unfold rebuiltCoalesce
  rcases ha.completeBranches_cases hb with hwhole | hcompleted
  · rw [hwhole]
    exact ⟨_, rfl, .whole⟩
  · rw [hcompleted]
    simp only [checkFit, ha.fitsBeside hb hfit, if_true]
    refine ⟨_, rfl, .expanded ?_⟩
    rw [Expr.type, ha.complete_type, Expr.typeApart, Expr.typeApart, Expr.type,
      StaticType.isCollection_nonNull, StaticType.nonNull_nonNull]

end SourceNode.ComesFrom

/-- The step lemma: a branch that is taken apart and closed. -/
private theorem takeApartBranch_comesFrom_of {side : BranchSide}
    (htakeApart : ∀ {n n' : Nominations} {node : SourceNode},
      Runs (e.takeApart model) n node n' → node.ComesFrom model e)
    (hrun : Runs (takeApartBranch model side (some e)) n node n') : node.ComesFrom model e := by
  rw [takeApartBranch] at hrun
  simp only [runs_bind, runs_pure, runs_insideBranch] at hrun
  obtain ⟨⟨inner, nominated⟩, _, ⟨_, hinner, -, -⟩, rfl, -⟩ := hrun
  exact (htakeApart hinner).close nominated

/-- Whatever is nominated meanwhile, taking an expression apart keeps its type
or gives it its type apart. The induction is on the branches. -/
theorem takeApart_comesFrom (hrun : Runs (e.takeApart model) n node n') :
    node.ComesFrom model e := by
  have hleaf : ∀ {e : Expr} {n n' : Nominations} {node : SourceNode},
      Runs (do return ⟨← e.rebuild (nominatingRebuilder model.sourceNames), false⟩) n node n' →
        node.ComesFrom model e := by
    intro e n n' node hrun
    simp only [runs_bind, runs_pure, rebuild_runs_iff] at hrun
    obtain ⟨_, _, ⟨-, rfl, -⟩, rfl, -⟩ := hrun
    exact .whole
  induction e using Expr.operandInduction generalizing n n' node with
  | conditional test whenTrue whenFalse ihTest ihTrue ihFalse =>
      rw [Expr.takeApart] at hrun
      simp only [runs_bind, runs_require, runs_suspended, rebuild_runs_iff, runs_of_except,
        checkBranches_eq_ok_iff] at hrun
      obtain ⟨_, _, ⟨⟨a, b, rfl, rfl, hfit⟩, -⟩, _, _, ⟨_, ⟨-, rfl, -⟩, -⟩, first, _, hfirst,
        second, _, hsecond, hnode, -⟩ := hrun
      have ha := takeApartBranch_comesFrom_of (ihTrue a rfl) hfirst
      have hb := takeApartBranch_comesFrom_of (ihFalse b rfl) hsecond
      obtain ⟨node', hnode', hcomes⟩ := ha.conditional hb hfit _
      obtain rfl : node' = node := Except.ok.inj (hnode'.symm.trans hnode)
      exact hcomes
  | coalesce left right ihLeft ihRight =>
      rw [Expr.takeApart] at hrun
      simp only [runs_bind, runs_require, runs_of_except, checkBranches_eq_ok_iff] at hrun
      obtain ⟨_, _, ⟨⟨a, b, rfl, rfl, hfit⟩, -⟩, first, _, hfirst, second, _, hsecond, hnode,
        -⟩ := hrun
      have ha := takeApartBranch_comesFrom_of (ihLeft a rfl) hfirst
      have hb := takeApartBranch_comesFrom_of (ihRight b rfl) hsecond
      obtain ⟨node', hnode', hcomes⟩ := ha.coalesce hb hfit
      obtain rfl : node' = node := Except.ok.inj (hnode'.symm.trans hnode)
      exact hcomes
  | _ => exact hleaf hrun

/-- Where two branches fit and could be taken apart, the node around them can
be rebuilt. -/
theorem rebuilt_ok_of_runs {firstSide secondSide : BranchSide} {before after : Nominations}
    (hfit : a.fitsBeside b = true)
    (hfirst : Runs (takeApartBranch model firstSide (some a)) n first n')
    (hsecond : Runs (takeApartBranch model secondSide (some b)) before second after) :
    (∀ test, ∃ node, rebuiltConditional model test first second = .ok node) ∧
      ∃ node, rebuiltCoalesce model a first second = .ok node := by
  have ha := takeApartBranch_comesFrom_of takeApart_comesFrom hfirst
  have hb := takeApartBranch_comesFrom_of takeApart_comesFrom hsecond
  constructor
  · intro test
    obtain ⟨node, hnode, -⟩ := ha.conditional hb hfit test
    exact ⟨node, hnode⟩
  · obtain ⟨node, hnode, -⟩ := ha.coalesce hb hfit
    exact ⟨node, hnode⟩

end

/-- A model can be expanded exactly if the branches of its clauses fit, and
each subquery in its clauses nests within the limit, has a source, whose
branches fit if it is a decision, and fulfils the same in its own clauses.
Nothing else is asked: where branches that fit are taken apart, the node
around them is rebuilt. -/
theorem exists_expand_iff (limit : Nat) (model : QueryModel) :
    ((∃ model', (model.expand limit).outcome = .ok model') ↔ model.IsAcceptable limit) ∧
      ∀ (reader : QueryModel) (a b : Expr) firstSide secondSide before between after
        (first second : SourceNode), a.type.isCompatible b.type = true →
        SourceExpansion.Runs (takeApartBranch reader firstSide (some a)) before first between →
        SourceExpansion.Runs (takeApartBranch reader secondSide (some b)) between second after →
          (∀ test, ∃ node, rebuiltConditional reader test first second = .ok node) ∧
            ∃ node, rebuiltCoalesce reader a first second = .ok node := by
  refine ⟨exists_expandWithin_iff, ?_⟩
  intro reader a b firstSide secondSide before between after first second hcompatible hfirst
    hsecond
  rw [← Expr.fitsBeside_eq] at hcompatible
  exact rebuilt_ok_of_runs hcompatible hfirst hsecond

/-- One level is needed for the subquery, and none for the one in the test of its
source. -/
theorem countWithSubqueryTest_isAcceptable :
    countWithSubqueryTest.IsAcceptable 1 ∧ ¬countWithSubqueryTest.IsAcceptable 0 := by
  constructor
  · exact (exists_expand_iff 1 countWithSubqueryTest).1.mp ⟨_, rfl⟩
  · intro h
    obtain ⟨model', hexpand⟩ := (exists_expand_iff 0 countWithSubqueryTest).1.mpr h
    cases hexpand

end ObjectQuery
