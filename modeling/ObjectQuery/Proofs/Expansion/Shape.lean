import ObjectQuery.Proofs.Expansion.Trigger

/-!
# The shape of an expansion

A source that is taken apart and what stands in place of its subquery are
two readings of one tree, its *split*. The inner nodes of the split are the
decisions with an expanded branch, its leaves are the branches that are not
taken apart any further. Read as the source, each leaf is the branch itself
and each node the decision it was. Read as the result, a branch that is a
collection is a copy of the subquery that reads from it, any other branch
stays, and a coalesce has become a conditional on its left operand being
present.

Since both readings go through the same tree in the same order, no branch
is lost, doubled or moved; putting the sources of the copies back in their
places is reading the split the other way.

## Main definitions

* `SourceSplit` — a source, split at the decisions that are taken apart.
* `SourceSplit.IsExact` — it is split exactly where it must be.

## Main results

* `SourceSplit.eq_of_isExact` — a source is split in one way only.
* `expand_splits_sources` — every replaced subquery is its source's split, read
  as the result.
-/

namespace ObjectQuery

/-- A source, split at its decisions down to the branches that become the
source of a subquery and those that are kept as they are. -/
inductive SourceSplit where
  | conditional (test : Expr) (whenTrue whenFalse : SourceSplit)
  | coalesce (left right : SourceSplit)
  | wrapped (branch : Expr)
  | kept (branch : Expr)

namespace SourceSplit

/-- The source that was split. -/
def source : SourceSplit → Expr
  | .conditional test whenTrue whenFalse =>
    .conditional test (some whenTrue.source) (some whenFalse.source)
  | .coalesce left right => .coalesce (some left.source) (some right.source)
  | .wrapped branch => branch
  | .kept branch => branch

/-- What the split source makes of a subquery. -/
def result (reader : QueryModel) : SourceSplit → Expr
  | .conditional test whenTrue whenFalse =>
    .conditional test (some (whenTrue.result reader)) (some (whenFalse.result reader))
  | .coalesce left right =>
    .conditional (.binary .notEqual left.source (.constant .null))
      (some (left.result reader)) (some (right.result reader))
  | .wrapped branch => .subquery { reader with source := some branch }
  | .kept branch => branch

/-- The source is split exactly at the decisions that are taken apart, and
the branches that become sources are exactly the collections. -/
def IsExact (own : List String) : SourceSplit → Prop
  | .conditional test whenTrue whenFalse =>
    (conditional test whenTrue whenFalse).source.IsTakenApart own ∧
      whenTrue.IsExact own ∧ whenFalse.IsExact own
  | .coalesce left right =>
    (coalesce left right).source.IsTakenApart own ∧ left.IsExact own ∧ right.IsExact own
  | .wrapped branch => ¬branch.IsTakenApart own ∧ branch.type.isCollection = true
  | .kept branch => ¬branch.IsTakenApart own ∧ branch.type.isCollection = false

variable {own : List String}

/-- A source is split in one way only. The induction is on the split. -/
theorem eq_of_isExact {split split' : SourceSplit} (h : split.IsExact own)
    (h' : split'.IsExact own) (hsource : split'.source = split.source) : split' = split := by
  induction split generalizing split' with
  | conditional test a b iha ihb =>
      cases split' with
      | conditional test' a' b' =>
          obtain ⟨htest, hsourceA, hsourceB⟩ := Expr.conditional.inj hsource
          have ha : a' = a := iha h.2.1 h'.2.1 (Option.some.inj hsourceA)
          have hb : b' = b := ihb h.2.2 h'.2.2 (Option.some.inj hsourceB)
          rw [htest, ha, hb]
      | coalesce => cases hsource
      | wrapped branch | kept branch =>
          obtain rfl : branch = _ := hsource
          exact absurd h.1 h'.1
  | coalesce a b iha ihb =>
      cases split' with
      | conditional => cases hsource
      | coalesce a' b' =>
          obtain ⟨hsourceA, hsourceB⟩ := Expr.coalesce.inj hsource
          have ha : a' = a := iha h.2.1 h'.2.1 (Option.some.inj hsourceA)
          have hb : b' = b := ihb h.2.2 h'.2.2 (Option.some.inj hsourceB)
          rw [ha, hb]
      | wrapped branch | kept branch =>
          obtain rfl : branch = _ := hsource
          exact absurd h.1 h'.1
  | wrapped branch =>
      cases split' with
      | conditional | coalesce =>
          obtain rfl : _ = branch := hsource
          exact absurd h'.1 h.1
      | wrapped branch' => rw [show branch' = branch from hsource]
      | kept branch' =>
          obtain rfl : branch' = branch := hsource
          exact absurd (h.2.symm.trans h'.2) Bool.true_eq_false.mp
  | kept branch =>
      cases split' with
      | conditional | coalesce =>
          obtain rfl : _ = branch := hsource
          exact absurd h'.1 h.1
      | wrapped branch' =>
          obtain rfl : branch' = branch := hsource
          exact absurd (h'.2.symm.trans h.2) Bool.true_eq_false.mp
      | kept branch' => rw [show branch' = branch from hsource]

end SourceSplit

/-- Every sound source has an exact split, which read as the result is what
stands in its place. The induction is on the branches. -/
theorem Expr.IsBranch.exists_split {reader : QueryModel} {e : Expr}
    (h : e.IsBranch reader.sourceNames) :
    ∃ split : SourceSplit, split.IsExact reader.sourceNames ∧ split.source = e ∧
      split.result reader = e.inPlace reader := by
  induction h with
  | @whole e _ hexpands =>
      have hwhole : ¬e.IsTakenApart reader.sourceNames := expands_eq_false_iff.mp hexpands
      cases hcollection : e.type.isCollection with
      | true =>
          have hplace := inPlace_of_collection hexpands hcollection
          exact ⟨.wrapped e, ⟨hwhole, hcollection⟩, rfl, hplace.symm⟩
      | false =>
          have hplace := inPlace_of_not_collection hexpands hcollection
          exact ⟨.kept e, ⟨hwhole, hcollection⟩, rfl, hplace.symm⟩
  | @conditional test a b _ hexpands _ _ iha ihb =>
      obtain ⟨first, hexactA, rfl, hplaceA⟩ := iha
      obtain ⟨second, hexactB, rfl, hplaceB⟩ := ihb
      refine ⟨.conditional test first second, ⟨expands_iff.mp hexpands, hexactA, hexactB⟩, rfl, ?_⟩
      rw [inPlace_conditional hexpands, SourceSplit.result, hplaceA, hplaceB]
  | @coalesce a b _ hexpands _ _ iha ihb =>
      obtain ⟨first, hexactA, rfl, hplaceA⟩ := iha
      obtain ⟨second, hexactB, rfl, hplaceB⟩ := ihb
      refine ⟨.coalesce first second, ⟨expands_iff.mp hexpands, hexactA, hexactB⟩, rfl, ?_⟩
      rw [inPlace_coalesce hexpands, SourceSplit.result, hplaceA, hplaceB, isPresent]

/-- What takes the place of a subquery other than the subquery itself is the
only exact split of its source, read as the result. -/
theorem QueryModel.Becomes.exists_split {limit budget : Nat}
    {nested expanded : QueryModel} {source result : Expr}
    (h : nested.Becomes limit budget expanded source result)
    (hreplaced : result ≠ .subquery expanded) :
    source.IsTakenApart expanded.sourceNames ∧
      ∃! split : SourceSplit, split.IsExact expanded.sourceNames ∧ split.source = source ∧
        split.result expanded = result := by
  have hexpands : source.expands expanded.sourceNames = true := by
    rw [← Bool.not_eq_false]
    exact mt h.result_eq_self hreplaced
  have hbranch := Expr.isBranch expanded.sourceNames (h.isSound_of_expands hexpands)
  obtain ⟨split, hexact, hsource, hresult⟩ := hbranch.exists_split
  have hplace : result = source.inPlace expanded := by
    rw [h.result_eq, if_pos hexpands]
  refine ⟨Expr.expands_iff.mp hexpands, split, ⟨hexact, hsource, hresult.trans hplace.symm⟩, ?_⟩
  intro split' hsplit'
  obtain ⟨hexact', hsource', -⟩ := hsplit'
  exact SourceSplit.eq_of_isExact hexact hexact' (hsource'.trans hsource.symm)

/-- Wherever an expansion puts something in place of a subquery, be it as deep
as it may, the source of the subquery was taken apart, and there is exactly
one split of it. Read as the source it gives the source, and read as the
result what stands in place of the subquery with its clauses expanded. -/
theorem expand_splits_sources {limit : Nat} {model model' : QueryModel}
    (hexpand : (model.expand limit).outcome = .ok model') :
    model.ExpandsBy (fun nested expanded result =>
      result = .subquery expanded ∨
        ∃ source, nested.source = some source ∧ expanded.source = some source ∧
          source.IsTakenApart expanded.sourceNames ∧
          ∃! split : SourceSplit, split.IsExact expanded.sourceNames ∧
            split.source = source ∧ split.result expanded = result) limit model' := by
  refine expandWithin_expandsBy ?_ hexpand
  intro left nested expanded source result hbecomes
  by_cases hreplaced : result = .subquery expanded
  · exact .inl hreplaced
  · have hsame := (expandWithin_source hbecomes.expandWithin_eq).1
    have hsource : nested.source = some source := hsame.symm.trans hbecomes.source_eq
    obtain ⟨hapart, hsplit⟩ := hbecomes.exists_split hreplaced
    exact .inr ⟨source, hsource, hbecomes.source_eq, hapart, hsplit⟩

/-- A decision between collections that no order has a part in. -/
def sharedLines : Expr :=
  .conditional (orderProperty "Held" .boolean) (some (.constant (.queryable "Line")))
    (some (.constant (.queryable "Line")))

/-- A count over one of several collections, or over none. -/
def countOfChoice : QueryModel :=
  perOrder (.subquery (countLines (.conditional (orderProperty "Paid" .boolean)
    (some (.coalesce (some (orderLines "Lines")) (some (.constant .null))))
    (some sharedLines))))

/-- The coalesce is taken apart, and its null stays without a subquery. The
decision beside it is not taken apart, and becomes the source of one
subquery as a whole. -/
theorem countOfChoice_splits :
    ∃ expanded, (countOfChoice.expand 8).outcome = .ok expanded ∧
      expanded = perOrder (.conditional (orderProperty "Paid" .boolean)
        (some (.conditional (.binary .notEqual (orderLines "Lines") (.constant .null))
          (some (.subquery (countLines (orderLines "Lines")))) (some (.constant .null))))
        (some (.subquery (countLines sharedLines)))) ∧
      countOfChoice.ExpandsBy (fun nested expanded result =>
        result = .subquery expanded ∨
          ∃ source, nested.source = some source ∧ expanded.source = some source ∧
            source.IsTakenApart expanded.sourceNames ∧
            ∃! split : SourceSplit, split.IsExact expanded.sourceNames ∧
              split.source = source ∧ split.result expanded = result) 8 expanded := by
  have hexpand : (countOfChoice.expand 8).outcome = .ok _ := rfl
  exact ⟨_, hexpand, rfl, expand_splits_sources hexpand⟩

end ObjectQuery
