import ObjectQuery.Proofs.Expansion.Again

/-!
# What sets the expansion off

Whether a source is taken apart is found out by a walk with a stack of
nominations. Seen from outside, it depends on the leaves of the source
alone: a source is taken apart if it is a decision and one of its leaves is
a collection that refers to an item of a foreign source. Tests do not count,
nor does anything inside of a subquery, nor the names that the subquery's own
source and joins introduce.

The expansion of a model looks at every subquery that is reached through
clause expressions, each of which may be taken apart or not.
`QueryModel.ExpandsBy` follows it down: at every place where a subquery
stands, it relates the subquery, the subquery with its own clauses expanded,
and what stands there in the end.

## Main definitions

* `Expr.IsTakenApart` — a leaf of the source sets the expansion off.
* `QueryModel.ExpandsBy` — the expansion, subquery by subquery.

## Main results

* `Expr.expands_iff` — the nominations find exactly these leaves.
* `expandWithin_expandsBy` — what holds of every replaced subquery holds at
  every place.
* `expand_changed_iff_readsApart` — which models are changed, and which
  subqueries keep their sources.
-/

namespace ObjectQuery

open Traced (Success)
open Relation (TransGen)

/-! ## Leaves that refer outside -/

/-- An expression refers outside if a reference in it, not inside of a
subquery, has a name that is not among the given ones. -/
theorem Expr.refersOutside_iff {own : List String} {e : Expr} :
    e.refersOutside own = true ↔
      ∃ name type, .source name type ∈ e.visits ∧ name ∉ own := by
  unfold refersOutside
  rw [List.any_eq_true]
  constructor
  · intro h
    obtain ⟨node, hnode, hforeign⟩ := h
    cases node with
    | source name type =>
        have hname : name ∉ own := by simpa using hforeign
        exact ⟨name, type, hnode, hname⟩
    | _ => cases hforeign
  · intro h
    obtain ⟨name, type, hnode, hname⟩ := h
    have hforeign : (!own.contains name) = true := by simpa using hname
    exact ⟨_, hnode, hforeign⟩

/-- The source is a decision, and one of its leaves is a collection and refers
to an item of a source that is not among the given ones. -/
def Expr.IsTakenApart (own : List String) (source : Expr) : Prop :=
  source.isBranching = true ∧
    ∃ leaf ∈ source.leaves, leaf.type.isCollection = true ∧
      ∃ name type, .source name type ∈ leaf.visits ∧ name ∉ own

section

variable {own : List String}

private theorem branchExpands_option_iff {o : Option Expr}
    (h : ∀ e, o = some e → (branchExpands own (some e) = true ↔
      ∃ leaf ∈ e.leaves, leaf.type.isCollection = true ∧ leaf.refersOutside own = true)) :
    branchExpands own o = true ↔
      ∃ leaf ∈ branchLeaves o, leaf.type.isCollection = true ∧
        leaf.refersOutside own = true := by
  cases o with
  | none => simp [branchExpands, branchLeaves]
  | some e => exact h e rfl

/-- A branch is expanded exactly if one of its leaves is a collection that
refers outside. The induction is on the branches: a decision is expanded if
one of its branches is, and anything else is its own leaf. -/
theorem branchExpands_iff {e : Expr} :
    branchExpands own (some e) = true ↔
      ∃ leaf ∈ e.leaves, leaf.type.isCollection = true ∧ leaf.refersOutside own = true := by
  have hleaf : ∀ {e : Expr}, e.isBranching = false → e.leaves = [e] →
      (branchExpands own (some e) = true ↔
        ∃ leaf ∈ e.leaves, leaf.type.isCollection = true ∧ leaf.refersOutside own = true) := by
    intro e hbranching hleaves
    rw [branchExpands, Expr.expands_eq_false hbranching, hbranching, hleaves]
    simp [and_comm]
  induction e using Expr.operandInduction with
  | conditional test whenTrue whenFalse _ ihTrue ihFalse =>
      have htrue := branchExpands_option_iff ihTrue
      have hfalse := branchExpands_option_iff ihFalse
      show ((_ || _) || (!true && _ && _)) = true ↔ _
      rw [Bool.not_true, Bool.false_and, Bool.false_and, Bool.or_false, Bool.or_eq_true_iff,
        htrue, hfalse, Expr.leaves]
      simp [or_and_right, exists_or]
  | coalesce left right ihLeft ihRight =>
      have hleft := branchExpands_option_iff ihLeft
      have hright := branchExpands_option_iff ihRight
      show ((_ || _) || (!true && _ && _)) = true ↔ _
      rw [Bool.not_true, Bool.false_and, Bool.false_and, Bool.or_false, Bool.or_eq_true_iff,
        hleft, hright, Expr.leaves]
      simp [or_and_right, exists_or]
  | _ => exact hleaf rfl rfl

/-- The nominations find out whether a source is taken apart. -/
theorem Expr.expands_iff {source : Expr} :
    source.expands own = true ↔ source.IsTakenApart own := by
  unfold IsTakenApart
  simp only [← refersOutside_iff]
  rw [← branchExpands_iff, branchExpands]
  cases hbranching : source.isBranching with
  | false => simp [expands_eq_false hbranching]
  | true => simp

theorem Expr.expands_eq_false_iff {source : Expr} :
    source.expands own = false ↔ ¬source.IsTakenApart own := by
  rw [← expands_iff, Bool.not_eq_true]

end

/-- The source of the model is taken apart. -/
def QueryModel.ReadsApart (model : QueryModel) : Prop :=
  ∃ source, model.source = some source ∧ source.IsTakenApart model.sourceNames

/-! ## Subquery by subquery -/

/-- In the second model something has taken the place of each subquery in the
clause expressions of the first one, where subqueries may nest `budget`
deep: `P` relates the subquery, the same with its own clauses expanded in
this way, and what is in its place. -/
def QueryModel.ExpandsBy (P : QueryModel → QueryModel → Expr → Prop) :
    (budget : Nat) → QueryModel → QueryModel → Prop
  | 0, model, model' => model.Related (Expr.Replaced fun _ _ => False) model'
  | budget + 1, model, model' =>
    model.Related (Expr.Replaced fun nested result =>
      ∃ expanded, nested.ExpandsBy P budget expanded ∧ P nested expanded result) model'

section

variable {limit budget : Nat} {model model' : QueryModel}

/-- What holds whenever a subquery is replaced holds at every place. The
induction is on how deep subqueries may nest. -/
theorem expandWithin_expandsBy {P : QueryModel → QueryModel → Expr → Prop}
    (hP : ∀ left nested expanded source result,
      nested.Becomes limit left expanded source result → P nested expanded result)
    (hexpand : (model.expandWithin limit budget).outcome = .ok model') :
    model.ExpandsBy P budget model' := by
  have hreaches := fun {budget : Nat} {model model' : QueryModel} =>
    @expandWithin_reaches_iff limit budget model model' Success.anyhow
  induction budget generalizing model model' with
  | zero =>
      have hrelated := hreaches.mp hexpand
      refine hrelated.mono fun e _ e' h => h.2.mono fun nested _ result hresult => ?_
      obtain ⟨_, _, _, hbudget, _⟩ := replacement_outcome_iff.mp hresult
      cases hbudget
  | succ budget ih =>
      have hrelated := hreaches.mp hexpand
      refine hrelated.mono fun e _ e' h => h.2.mono fun nested _ result hresult => ?_
      obtain ⟨left, expanded, source, hbudget, hbecomes⟩ := replacement_outcome_iff.mp hresult
      obtain rfl : budget = left := Nat.succ.inj hbudget
      have hexpanded : nested.ExpandsBy P budget expanded := ih hbecomes.expandWithin_eq
      exact ⟨expanded, hexpanded, hP budget nested expanded source result hbecomes⟩

namespace QueryModel.Becomes

variable {nested expanded : QueryModel} {source result : Expr}

/-- Expanding the clauses of a subquery makes no difference to whether its
source is taken apart. -/
theorem expands_iff_readsApart (h : nested.Becomes limit budget expanded source result) :
    source.expands expanded.sourceNames = true ↔ nested.ReadsApart := by
  obtain ⟨hsource, hnames⟩ := expandWithin_source h.expandWithin_eq
  have hnested : nested.source = some source := hsource.symm.trans h.source_eq
  rw [hnames, Expr.expands_iff]
  constructor
  · intro hapart
    exact ⟨source, hnested, hapart⟩
  · intro hreads
    obtain ⟨source', hsource', hapart⟩ := hreads
    obtain rfl : source' = source := Option.some.inj (hsource'.symm.trans hnested)
    exact hapart

/-- A subquery whose source is not taken apart keeps its place and its
source. -/
theorem keeps_source (h : nested.Becomes limit budget expanded source result)
    (hreads : ¬nested.ReadsApart) :
    result = .subquery expanded ∧ expanded.source = nested.source := by
  have hexpands : source.expands expanded.sourceNames = false := by
    rw [Bool.eq_false_iff]
    exact mt h.expands_iff_readsApart.mp hreads
  exact ⟨h.result_eq_self hexpands, (expandWithin_source h.expandWithin_eq).1⟩

end QueryModel.Becomes

/-! ## When nothing happens -/

/-- The expansion of a subquery leaves no trace exactly if none is left by its
clauses and its source is not taken apart. -/
theorem replacement_eq_pure_iff {nested : QueryModel} {result : Expr} :
    Expansion.replacement limit (budget + 1) nested = pure result ↔
      ∃ expanded source, nested.expandWithin limit budget = pure expanded ∧
        nested.Becomes limit budget expanded source result ∧ ¬nested.ReadsApart := by
  unfold Expansion.replacement
  rw [Traced.bind_eq_pure]
  simp only [ofSubquery_eq_pure_iff]
  constructor
  · intro h
    obtain ⟨expanded, hexpand, source, hsource, hsound, hexpands, hresult⟩ := h
    have hbecomes : nested.Becomes limit budget expanded source result :=
      ⟨Traced.outcome_eq_of_eq_pure hexpand, hsource, hsound, by rw [hexpands]; exact hresult⟩
    have hreads : ¬nested.ReadsApart := by
      rw [← hbecomes.expands_iff_readsApart, hexpands]
      exact Bool.false_ne_true
    exact ⟨expanded, source, hexpand, hbecomes, hreads⟩
  · intro h
    obtain ⟨expanded, source, hexpand, hbecomes, hreads⟩ := h
    have hexpands : source.expands expanded.sourceNames = false := by
      rw [Bool.eq_false_iff]
      exact mt hbecomes.expands_iff_readsApart.mp hreads
    exact ⟨expanded, hexpand, source, hbecomes.source_eq, hbecomes.isSound, hexpands,
      hbecomes.result_eq_self hexpands⟩

/-- An expansion that succeeds leaves no trace exactly if none of the
replacements in it does. -/
theorem expandWithin_eq_pure_iff_replacement
    (hexpand : (model.expandWithin limit budget).outcome = .ok model') :
    model.expandWithin limit budget = pure model' ↔
      ∀ nested result, model.Nests nested →
        (Expansion.replacement limit budget nested).outcome = .ok result →
        Expansion.replacement limit budget nested = pure result := by
  have hanyhow := (@expandWithin_reaches_iff limit budget model model' Success.anyhow).mp hexpand
  have hquietly : model.expandWithin limit budget = pure model' ↔ _ :=
    @expandWithin_reaches_iff limit budget model model' Success.quietly
  rw [hquietly]
  constructor
  · intro hrelated nested result hnests houtcome
    obtain ⟨e, he, hholds⟩ := hnests
    obtain ⟨e', -, -, hreplaced⟩ := exists_right_of_forall₂ hrelated.clauseExpressions he
    obtain ⟨other, hother, -⟩ := hreplaced.exists_result hholds
    have hsame := (Traced.outcome_eq_of_eq_pure hother).symm.trans houtcome
    obtain rfl : other = result := Except.ok.inj hsame
    exact hother
  · intro h
    refine hanyhow.mono fun e he e' hreached => ?_
    obtain ⟨hsound, hreplaced⟩ := hreached
    refine ⟨hsound, hreplaced.mono fun nested hholds result houtcome => ?_⟩
    exact h nested result ⟨e, he, hholds⟩ houtcome

/-- An expansion that succeeds leaves no trace exactly if no subquery that is
reached through clause expressions reads from a source that is taken apart.
The induction is on how deep subqueries may nest. -/
theorem expandWithin_eq_pure_iff_not_readsApart
    (hexpand : (model.expandWithin limit budget).outcome = .ok model') :
    model.expandWithin limit budget = pure model' ↔
      ∀ nested, TransGen QueryModel.Nests model nested → ¬nested.ReadsApart := by
  rw [expandWithin_eq_pure_iff_replacement hexpand]
  induction budget generalizing model model' with
  | zero =>
      constructor
      · intro _ nested hreached
        obtain ⟨next, hnests, -⟩ := TransGen.head'_iff.mp hreached
        obtain ⟨_, _, _, _, hbudget, _⟩ := hnests.exists_becomes hexpand
        cases hbudget
      · intro _ nested result _ houtcome
        cases houtcome
  | succ budget ih =>
      have hinner : ∀ {nested expanded : QueryModel} {source result : Expr},
          nested.Becomes limit budget expanded source result →
          (nested.expandWithin limit budget = pure expanded ↔
            ∀ inner, TransGen QueryModel.Nests nested inner → ¬inner.ReadsApart) := by
        intro nested expanded source result hbecomes
        have hexpand := hbecomes.expandWithin_eq
        rw [expandWithin_eq_pure_iff_replacement hexpand]
        exact ih hexpand
      constructor
      · intro hquiet nested hreached
        obtain ⟨next, hnests, hrest⟩ := TransGen.head'_iff.mp hreached
        obtain ⟨left, expanded, source, result, hbudget, hbecomes, -⟩ :=
          hnests.exists_becomes hexpand
        have houtcome := replacement_outcome_iff.mpr ⟨left, expanded, source, hbudget, hbecomes⟩
        obtain ⟨expanded, source, hexpanded, hbecomes, hreads⟩ :=
          replacement_eq_pure_iff.mp (hquiet next result hnests houtcome)
        rcases Relation.reflTransGen_iff_eq_or_transGen.mp hrest with rfl | hrest
        · exact hreads
        · exact (hinner hbecomes).mp hexpanded nested hrest
      · intro hnone nested result hnests houtcome
        obtain ⟨left, expanded, source, hbudget, hbecomes⟩ := replacement_outcome_iff.mp houtcome
        obtain rfl : budget = left := Nat.succ.inj hbudget
        have hexpanded : nested.expandWithin limit budget = pure expanded :=
          (hinner hbecomes).mpr fun inner hreached => hnone inner (.head hnests hreached)
        have hreads : ¬nested.ReadsApart := hnone nested (.single hnests)
        exact replacement_eq_pure_iff.mpr ⟨expanded, source, hexpanded, hbecomes, hreads⟩

/-- An expansion that succeeds changed something exactly if it left a trace. -/
theorem changed_eq_false_iff {α : Type} {expansion : Expansion α} {a : α}
    (h : expansion.outcome = .ok a) : expansion.changed = false ↔ expansion = pure a := by
  obtain ⟨events, outcome⟩ := expansion
  obtain rfl : outcome = .ok a := h
  cases events <;> simp [Expansion.changed, pure]

end

/-- An expansion that succeeds changes something exactly if some subquery that
is reached through clause expressions, at any depth, reads from a decision
with a leaf that is a collection and refers to an item of a foreign source.
Every other subquery keeps its place and its source, at every place. -/
theorem expand_changed_iff_readsApart {limit : Nat} {model model' : QueryModel}
    (hexpand : (model.expand limit).outcome = .ok model') :
    ((model.expand limit).changed = true ↔
        ∃ nested, TransGen QueryModel.Nests model nested ∧ nested.ReadsApart) ∧
      model.ExpandsBy (fun nested expanded result => ¬nested.ReadsApart →
        result = .subquery expanded ∧ expanded.source = nested.source) limit model' := by
  have hquiet : (model.expand limit).changed = false ↔ _ :=
    (changed_eq_false_iff hexpand).trans (expandWithin_eq_pure_iff_not_readsApart hexpand)
  constructor
  · rw [← Bool.not_eq_false, hquiet]
    simp only [not_forall, not_not, exists_prop]
  · exact expandWithin_expandsBy (fun _ _ _ _ _ hbecomes => hbecomes.keeps_source) hexpand

/-- A count of lines, where lines count if the collection that a flag selects
has a line. -/
def countIfAnySelected : QueryModel :=
  perOrder (.subquery { countLines (orderLines "Lines") with filter := some anySelectedLine })

/-- The count reads from a plain collection and keeps it. The change comes from
the subquery in its filter. -/
theorem countIfAnySelected_changed :
    ∃ expanded, (countIfAnySelected.expand 8).outcome = .ok expanded ∧
      (countIfAnySelected.expand 8).changed = true ∧
      (∃ nested, TransGen QueryModel.Nests countIfAnySelected nested ∧ nested.ReadsApart) ∧
      countIfAnySelected.ExpandsBy (fun nested expanded result => ¬nested.ReadsApart →
        result = .subquery expanded ∧ expanded.source = nested.source) 8 expanded := by
  have hexpand : (countIfAnySelected.expand 8).outcome = .ok (perOrder (.subquery
      { countLines (orderLines "Lines") with
        filter := some (.conditional (orderProperty "Paid" .boolean)
          (some (.subquery (anyLine (orderLines "Lines"))))
          (some (.subquery (anyLine (orderLines "Archived"))))) })) := rfl
  have hchanged : (countIfAnySelected.expand 8).changed = true := rfl
  obtain ⟨hiff, hplaces⟩ := expand_changed_iff_readsApart hexpand
  exact ⟨_, hexpand, hchanged, hiff.mp hchanged, hplaces⟩

end ObjectQuery
