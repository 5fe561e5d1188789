import ObjectQuery.Proofs.Expansion.Nominating
import ObjectQuery.Proofs.StaticType
import ObjectQuery.Proofs.Success

/-!
# What the expansion of a source makes

A branch of a source is nominated exactly if it branches no further and
refers to an item of a foreign source. From this it follows by recursion,
with no state, which branches are expanded (`Expr.expands`) and what stands
in place of the source (`Expr.apart`).

The types of the branches are checked a second time after the expansion.
This check never fails: an expanded branch has the type of the subquery
where the branch denoted a collection, and a branch that is left out keeps
its own (`Expr.typeApart`).

## Main results

* `takeApart_runs_iff` — the expansion succeeds exactly on sound sources, and
  gives the pure description.
* `expandSource?_eq_ok_iff` — the same for the whole source of a subquery.
-/

namespace ObjectQuery

/-! ## The pure description -/

mutual

/-- Whether a branch in the expression is expanded. -/
def Expr.expands (own : List String) : Expr → Bool
  | .conditional _ whenTrue whenFalse =>
    branchExpands own whenTrue || branchExpands own whenFalse
  | .coalesce left right => branchExpands own left || branchExpands own right
  | _ => false

/-- Whether a branch is expanded by itself: in parts, or as a whole because
it is a collection that refers outside. -/
def branchExpands (own : List String) : Option Expr → Bool
  | none => false
  | some e =>
    e.expands own || (!e.isBranching && e.refersOutside own && e.type.isCollection)

end

mutual

/-- What stands in place of an expression in branch position. -/
def Expr.apart (model : QueryModel) : Expr → Expr
  | .conditional test whenTrue whenFalse =>
    if (Expr.conditional test whenTrue whenFalse).expands model.sourceNames then
      .conditional test (branchApart model whenTrue) (branchApart model whenFalse)
    else .conditional test whenTrue whenFalse
  | .coalesce left right =>
    if (Expr.coalesce left right).expands model.sourceNames then
      .conditional (left.getD default).isPresent (branchApart model left)
        (branchApart model right)
    else .coalesce left right
  | e => e

/-- What stands in place of a branch beside an expanded one. -/
def branchApart (model : QueryModel) : Option Expr → Option Expr
  | none => none
  | some e => some <|
    if e.expands model.sourceNames then e.apart model
    else if e.type.isCollection then model.reading e else e

end

/-- What stands in place of a branch that is there. -/
def Expr.inPlace (model : QueryModel) (e : Expr) : Expr :=
  if e.expands model.sourceNames then e.apart model
  else if e.type.isCollection then model.reading e else e

@[simp] theorem branchApart_some (model : QueryModel) (e : Expr) :
    branchApart model (some e) = some (e.inPlace model) := by
  rw [branchApart, Expr.inPlace]

section

variable {model : QueryModel}

theorem Expr.expands_eq_false {own : List String} {e : Expr} (h : e.isBranching = false) :
    e.expands own = false := by
  cases e with
  | conditional | coalesce => cases h
  | _ => rfl

/-- Where no branch is expanded, everything stays. -/
theorem Expr.apart_eq_self {e : Expr} (h : e.expands model.sourceNames = false) :
    e.apart model = e := by
  cases e with
  | conditional test whenTrue whenFalse => rw [apart, h, if_neg Bool.false_ne_true]
  | coalesce left right => rw [apart, h, if_neg Bool.false_ne_true]
  | _ => rfl

/-! ## The types of what stands in place -/

/-- The null constant is untyped, so it needs no rule of its own beside another
branch. -/
theorem Expr.fitsBeside_eq (a b : Expr) : a.fitsBeside b = a.type.isCompatible b.type := by
  have hnull : ∀ {e : Expr}, e.isNullConstant = true → e.type = .object := by
    intro e he
    cases e with
    | constant value =>
        cases value with
        | null => rfl
        | _ => cases he
    | _ => cases he
  unfold fitsBeside
  by_cases ha : a.isNullConstant = true
  · rw [ha, hnull ha, StaticType.isCompatible_object_left]
    rfl
  · by_cases hb : b.isNullConstant = true
    · rw [hb, hnull hb, StaticType.isCompatible_object_right, Bool.or_true]
    · rw [Bool.eq_false_iff.mpr ha, Bool.eq_false_iff.mpr hb, Bool.false_or, Bool.false_or]

theorem QueryModel.reading_type (source : Expr) :
    (model.reading source).type = model.resultType := by
  rw [QueryModel.reading, Expr.type, QueryModel.resultType_eq, QueryModel.resultType_eq]
  rfl

theorem Expr.inPlace_conditional {test a b : Expr}
    (h : (conditional test (some a) (some b)).expands model.sourceNames = true) :
    (conditional test (some a) (some b)).inPlace model =
      .conditional test (some (a.inPlace model)) (some (b.inPlace model)) := by
  rw [inPlace, if_pos h, apart, if_pos h, branchApart_some, branchApart_some]

theorem Expr.inPlace_coalesce {a b : Expr}
    (h : (coalesce (some a) (some b)).expands model.sourceNames = true) :
    (coalesce (some a) (some b)).inPlace model =
      .conditional a.isPresent (some (a.inPlace model)) (some (b.inPlace model)) := by
  rw [inPlace, if_pos h, apart, if_pos h, branchApart_some, branchApart_some]
  rfl

theorem Expr.inPlace_of_collection {e : Expr} (h : e.expands model.sourceNames = false)
    (hcollection : e.type.isCollection = true) : e.inPlace model = model.reading e := by
  rw [inPlace, h, if_neg Bool.false_ne_true, if_pos hcollection]

theorem Expr.inPlace_of_not_collection {e : Expr}
    (h : e.expands model.sourceNames = false) (hcollection : e.type.isCollection = false) :
    e.inPlace model = e := by
  rw [inPlace, h, if_neg Bool.false_ne_true, hcollection, if_neg Bool.false_ne_true]

/-- The type of what stands in place of an expression: that of the subquery
where the expression is a collection, and else the type of the expression.
Nullability is left out of account, since an expanded coalesce loses it. -/
def Expr.typeApart (model : QueryModel) (e : Expr) : StaticType :=
  if e.type.isCollection then model.resultType.nonNull else e.type.nonNull

/-- Compatible branches are both collections, and then have one type apart, or
keep their types, or one of them is untyped. -/
theorem Expr.isCompatible_typeApart {a b : Expr}
    (h : a.type.isCompatible b.type = true) :
    (a.typeApart model).isCompatible (b.typeApart model) = true := by
  unfold typeApart
  cases hleft : a.type.isCollection with
  | true =>
      cases hright : b.type.isCollection with
      | true => exact StaticType.isCompatible_refl _
      | false =>
          rw [if_neg Bool.false_ne_true,
            StaticType.nonNull_eq_object_of_collection_left hleft hright h]
          exact StaticType.isCompatible_object_right _
  | false =>
      cases hright : b.type.isCollection with
      | true =>
          rw [if_neg Bool.false_ne_true,
            StaticType.nonNull_eq_object_of_collection_right hleft hright h]
          exact StaticType.isCompatible_object_left _
      | false =>
          rw [if_neg Bool.false_ne_true, if_neg Bool.false_ne_true,
            StaticType.isCompatible_nonNull_left, StaticType.isCompatible_nonNull_right]
          exact h

/-- What stands in place of an expression has this type. -/
theorem Expr.inPlace_type {e : Expr} (hsound : e.IsSound) :
    (e.inPlace model).type.nonNull = e.typeApart model := by
  have hunexpanded : ∀ e : Expr, e.expands model.sourceNames = false →
      (e.inPlace model).type.nonNull = e.typeApart model := by
    intro e hexpands
    unfold typeApart
    cases hcollection : e.type.isCollection with
    | true =>
        rw [inPlace_of_collection hexpands hcollection, QueryModel.reading_type]
        rfl
    | false =>
        rw [inPlace_of_not_collection hexpands hcollection]
        rfl
  induction e using Expr.operandInduction with
  | conditional test whenTrue whenFalse ihTest ihTrue ihFalse =>
      by_cases hexpands :
          (conditional test whenTrue whenFalse).expands model.sourceNames = true
      · obtain ⟨-, a, b, rfl, rfl, -, ha, -⟩ := isSound_conditional.mp hsound
        rw [inPlace_conditional hexpands, type, typeApart, type]
        exact ihTrue a rfl ha
      · exact hunexpanded _ (Bool.eq_false_iff.mpr hexpands)
  | coalesce left right ihLeft ihRight =>
      by_cases hexpands : (coalesce left right).expands model.sourceNames = true
      · obtain ⟨a, b, rfl, rfl, -, ha, -⟩ := isSound_coalesce.mp hsound
        rw [inPlace_coalesce hexpands, type, typeApart, type, StaticType.isCollection_nonNull,
          StaticType.nonNull_nonNull]
        exact ihLeft a rfl ha
      · exact hunexpanded _ (Bool.eq_false_iff.mpr hexpands)
  | _ => exact hunexpanded _ (expands_eq_false rfl)

/-- The null constant is left in its place, and nothing else becomes it. -/
theorem Expr.inPlace_isNullConstant {e : Expr} (hsound : e.IsSound) :
    (e.inPlace model).isNullConstant = e.isNullConstant := by
  by_cases hexpands : e.expands model.sourceNames = true
  · cases e with
    | conditional test whenTrue whenFalse =>
        obtain ⟨-, a, b, rfl, rfl, -⟩ := isSound_conditional.mp hsound
        rw [inPlace_conditional hexpands]
        rfl
    | coalesce left right =>
        obtain ⟨a, b, rfl, rfl, -⟩ := isSound_coalesce.mp hsound
        rw [inPlace_coalesce hexpands]
        rfl
    | _ => cases hexpands
  · have hstays := Bool.eq_false_iff.mpr hexpands
    cases hcollection : e.type.isCollection with
    | false => rw [inPlace_of_not_collection hstays hcollection]
    | true =>
        rw [inPlace_of_collection hstays hcollection]
        cases e with
        | constant value =>
            cases value with
            | null => cases hcollection
            | _ => rfl
        | _ => rfl

/-- Branches that fit beside each other still do when both are replaced. -/
theorem Expr.fitsBeside_inPlace {a b : Expr} (ha : a.IsSound) (hb : b.IsSound)
    (hfit : a.fitsBeside b = true) : (a.inPlace model).fitsBeside (b.inPlace model) = true := by
  rw [fitsBeside_eq] at hfit ⊢
  rw [← StaticType.isCompatible_nonNull_left, ← StaticType.isCompatible_nonNull_right,
    inPlace_type ha, inPlace_type hb]
  exact isCompatible_typeApart hfit

/-! ## Closing a branch -/

/-- A branch as it is when it is closed. -/
def Expr.closed (model : QueryModel) (e : Expr) : SourceNode :=
  (⟨e.apart model, e.expands model.sourceNames⟩ : SourceNode).close model
    (!e.isBranching && e.refersOutside model.sourceNames)

private theorem Expr.closed_expanded (e : Expr) :
    (e.closed model).expanded = branchExpands model.sourceNames (some e) := by
  rw [branchExpands, closed, SourceNode.close]
  generalize (!e.isBranching && e.refersOutside model.sourceNames) = nominated
  cases hexpands : e.expands model.sourceNames with
  | true => rfl
  | false =>
      rw [apart_eq_self hexpands]
      cases nominated with
      | true => cases hcollection : e.type.isCollection <;> simp
      | false => rfl

private theorem Expr.closed_complete (e : Expr) :
    (e.closed model).complete model = e.inPlace model := by
  rw [SourceNode.complete, closed, SourceNode.close, inPlace]
  generalize (!e.isBranching && e.refersOutside model.sourceNames) = nominated
  cases hexpands : e.expands model.sourceNames with
  | true => rfl
  | false =>
      rw [apart_eq_self hexpands]
      cases nominated with
      | true => cases hcollection : e.type.isCollection <;> simp [hcollection]
      | false => rfl

private theorem Expr.closed_expr {e : Expr} (h : branchExpands model.sourceNames (some e) = false) :
    (e.closed model).expr = e := by
  rw [branchExpands, Bool.or_eq_false_iff] at h
  rw [closed, apart_eq_self h.1, SourceNode.close, h.1]
  simp [h.2]

private theorem completeBranches_closed (a b : Expr) :
    completeBranches model (a.closed model) (b.closed model) =
      if branchExpands model.sourceNames (some a) ||
          branchExpands model.sourceNames (some b) then
        (a.inPlace model, b.inPlace model, true)
      else (a, b, false) := by
  rw [completeBranches, Expr.closed_expanded, Expr.closed_expanded, Expr.closed_complete,
    Expr.closed_complete]
  cases hleft : branchExpands model.sourceNames (some a) with
  | true => rfl
  | false =>
      cases hright : branchExpands model.sourceNames (some b) with
      | true => rfl
      | false => rw [Expr.closed_expr hleft, Expr.closed_expr hright]

/-- The second check of the types of a conditional does not fail. -/
theorem rebuiltConditional_closed {test a b : Expr} (ha : a.IsSound) (hb : b.IsSound)
    (hfit : a.fitsBeside b = true) :
    rebuiltConditional model test (a.closed model) (b.closed model) =
      .ok ⟨(Expr.conditional test (some a) (some b)).apart model,
        (Expr.conditional test (some a) (some b)).expands model.sourceNames⟩ := by
  rw [rebuiltConditional, completeBranches_closed, Expr.apart, Expr.expands]
  cases hexpands : branchExpands model.sourceNames (some a) ||
    branchExpands model.sourceNames (some b) with
  | true =>
      simp only [if_true, checkFit, Expr.fitsBeside_inPlace ha hb hfit, branchApart_some]
      rfl
  | false =>
      simp only [Bool.false_eq_true, if_false, checkFit, hfit, if_true]
      rfl

/-- The second check of the types of a coalesce does not fail. -/
theorem rebuiltCoalesce_closed {a b : Expr} (ha : a.IsSound) (hb : b.IsSound)
    (hfit : a.fitsBeside b = true) :
    rebuiltCoalesce model a (a.closed model) (b.closed model) =
      .ok ⟨(Expr.coalesce (some a) (some b)).apart model,
        (Expr.coalesce (some a) (some b)).expands model.sourceNames⟩ := by
  rw [rebuiltCoalesce, completeBranches_closed, Expr.apart, Expr.expands]
  cases hexpands : branchExpands model.sourceNames (some a) ||
    branchExpands model.sourceNames (some b) with
  | true =>
      simp only [if_true, checkFit, Expr.fitsBeside_inPlace ha hb hfit, branchApart_some]
      rfl
  | false => rfl

/-! ## The walk gives the pure description -/

open SourceExpansion (Runs runs_pure runs_bind runs_require runs_of_except runs_suspended
  runs_insideBranch)

private theorem takeApartBranch_runs_iff {side : BranchSide} {e : Expr} {n n' : Nominations}
    {node : SourceNode} (h : n.suspensions = 0)
    (htakeApart : ∀ {n n' : Nominations} {node : SourceNode}, n.suspensions = 0 →
      (Runs (e.takeApart model) n node n' ↔
        e.IsSound ∧ node = ⟨e.apart model, e.expands model.sourceNames⟩ ∧
          n' = n.noting (!e.isBranching && e.refersOutside model.sourceNames))) :
    Runs (takeApartBranch model side (some e)) n node n' ↔
      e.IsSound ∧ node = e.closed model ∧ n' = n := by
  have hpush : n.push.suspensions = 0 := h
  obtain ⟨hnominated, hpop⟩ :=
    Nominations.push_noting h (!e.isBranching && e.refersOutside model.sourceNames)
  rw [takeApartBranch]
  simp only [runs_bind, runs_pure, runs_insideBranch, htakeApart hpush]
  constructor
  · rintro ⟨⟨_, _⟩, _, ⟨_, ⟨hsound, hnode, rfl⟩, hclose, rfl⟩, rfl, rfl⟩
    refine ⟨hsound, ?_, hpop⟩
    simp only at hnode hclose
    rw [hnode, hclose, hnominated]
    rfl
  · rintro ⟨hsound, rfl, rfl⟩
    exact ⟨(⟨e.apart model, e.expands model.sourceNames⟩,
      !e.isBranching && e.refersOutside model.sourceNames), n',
      ⟨_, ⟨hsound, rfl, rfl⟩, hnominated.symm, hpop.symm⟩, rfl, rfl⟩

private theorem takeApart_leaf_runs_iff {e : Expr} {n n' : Nominations} {node : SourceNode}
    (hbranching : e.isBranching = false) :
    Runs (do return ⟨← e.rebuild (nominatingRebuilder model.sourceNames), false⟩) n node n' ↔
      e.IsSound ∧ node = ⟨e.apart model, e.expands model.sourceNames⟩ ∧
        n' = n.noting (!e.isBranching && e.refersOutside model.sourceNames) := by
  have hexpands : e.expands model.sourceNames = false := Expr.expands_eq_false hbranching
  rw [hexpands, Expr.apart_eq_self hexpands, hbranching, Bool.not_false, Bool.true_and]
  simp only [runs_bind, runs_pure, rebuild_runs_iff]
  constructor
  · rintro ⟨_, _, ⟨hsound, rfl, rfl⟩, rfl, rfl⟩
    exact ⟨hsound, rfl, rfl⟩
  · rintro ⟨hsound, rfl, rfl⟩
    exact ⟨e, _, ⟨hsound, rfl, rfl⟩, rfl, rfl⟩

/-- Taking a source apart succeeds exactly if the source is sound, and gives
what the pure description says. Only a node that branches no further
nominates the branch around it. -/
theorem takeApart_runs_iff {e : Expr} {n n' : Nominations} {node : SourceNode}
    (h : n.suspensions = 0) :
    Runs (e.takeApart model) n node n' ↔
      e.IsSound ∧ node = ⟨e.apart model, e.expands model.sourceNames⟩ ∧
        n' = n.noting (!e.isBranching && e.refersOutside model.sourceNames) := by
  induction e using Expr.operandInduction generalizing n n' node with
  | conditional test whenTrue whenFalse ihTest ihTrue ihFalse =>
      rw [Expr.takeApart, Expr.isSound_conditional]
      simp only [runs_bind, runs_require, runs_suspended, rebuild_runs_iff, runs_of_except,
        checkBranches_eq_ok_iff]
      constructor
      · rintro ⟨_, _, ⟨⟨a, b, rfl, rfl, hfit⟩, rfl⟩, _, _, ⟨_, ⟨htest, rfl, rfl⟩, rfl⟩, first,
          _, hfirst, second, _, hsecond, hnode, rfl⟩
        rw [Nominations.suspend_noting_resume] at hfirst
        obtain ⟨ha, rfl, rfl⟩ := (takeApartBranch_runs_iff h (ihTrue a rfl)).mp hfirst
        obtain ⟨hb, rfl, rfl⟩ := (takeApartBranch_runs_iff h (ihFalse b rfl)).mp hsecond
        rw [rebuiltConditional_closed ha hb hfit] at hnode
        exact ⟨⟨htest, a, b, rfl, rfl, hfit, ha, hb⟩, (Except.ok.inj hnode).symm, rfl⟩
      · rintro ⟨⟨htest, a, b, rfl, rfl, hfit, ha, hb⟩, rfl, rfl⟩
        refine ⟨(), n', ⟨⟨a, b, rfl, rfl, hfit⟩, rfl⟩, test, n', ⟨_, ⟨htest, rfl, rfl⟩, ?_⟩,
          a.closed model, n', ?_, b.closed model, n', ?_, ?_⟩
        · rw [Nominations.suspend_noting_resume]
        · exact (takeApartBranch_runs_iff h (ihTrue a rfl)).mpr ⟨ha, rfl, rfl⟩
        · exact (takeApartBranch_runs_iff h (ihFalse b rfl)).mpr ⟨hb, rfl, rfl⟩
        · exact ⟨rebuiltConditional_closed ha hb hfit, rfl⟩
  | coalesce left right ihLeft ihRight =>
      rw [Expr.takeApart, Expr.isSound_coalesce]
      simp only [runs_bind, runs_require, runs_of_except, checkBranches_eq_ok_iff]
      constructor
      · rintro ⟨_, _, ⟨⟨a, b, rfl, rfl, hfit⟩, rfl⟩, first, _, hfirst, second, _, hsecond,
          hnode, rfl⟩
        obtain ⟨ha, rfl, rfl⟩ := (takeApartBranch_runs_iff h (ihLeft a rfl)).mp hfirst
        obtain ⟨hb, rfl, rfl⟩ := (takeApartBranch_runs_iff h (ihRight b rfl)).mp hsecond
        rw [Option.getD_some, rebuiltCoalesce_closed ha hb hfit] at hnode
        exact ⟨⟨a, b, rfl, rfl, hfit, ha, hb⟩, (Except.ok.inj hnode).symm, rfl⟩
      · rintro ⟨⟨a, b, rfl, rfl, hfit, ha, hb⟩, rfl, rfl⟩
        refine ⟨(), n', ⟨⟨a, b, rfl, rfl, hfit⟩, rfl⟩, a.closed model, n', ?_, b.closed model, n',
          ?_, ?_⟩
        · exact (takeApartBranch_runs_iff h (ihLeft a rfl)).mpr ⟨ha, rfl, rfl⟩
        · exact (takeApartBranch_runs_iff h (ihRight b rfl)).mpr ⟨hb, rfl, rfl⟩
        · exact ⟨rebuiltCoalesce_closed ha hb hfit, rfl⟩
  | _ => exact takeApart_leaf_runs_iff rfl

/-- What stands in place of a subquery with the given source: nothing new
where the source does not branch or no branch is expanded, and else the
source taken apart. Only an unsound branching source is refused. -/
theorem expandSource?_eq_ok_iff {source : Expr} {result : Option Expr} :
    model.expandSource? source = .ok result ↔
      (source.isBranching = true → source.IsSound) ∧
        result =
          if source.expands model.sourceNames then some (source.apart model) else none := by
  rw [QueryModel.expandSource?]
  cases hbranching : source.isBranching with
  | false =>
      rw [Expr.expands_eq_false hbranching]
      simp only [Bool.false_eq_true, if_false, false_implies, true_and]
      show Except.ok none = Except.ok result ↔ _
      rw [Except.ok.injEq, eq_comm]
  | true =>
      have hrun : ∀ node, ((source.takeApart model).run .empty).1 = .ok node ↔
          source.IsSound ∧
            node = ⟨source.apart model, source.expands model.sourceNames⟩ := by
        intro node
        have hruns := @takeApart_runs_iff model source .empty
          ((source.takeApart model).run .empty).2 node rfl
        constructor
        · intro hok
          obtain ⟨hsound, hnode, -⟩ := hruns.mp (Prod.ext hok rfl)
          exact ⟨hsound, hnode⟩
        · rintro ⟨hsound, hnode⟩
          have hruns : Runs (source.takeApart model) .empty node _ :=
            (takeApart_runs_iff rfl).mpr ⟨hsound, hnode, rfl⟩
          exact (Prod.mk.inj hruns).1
      simp only [if_true, bind_eq_ok, hrun, true_implies]
      constructor
      · rintro ⟨_, ⟨hsound, rfl⟩, hresult⟩
        exact ⟨hsound, (Except.ok.inj hresult).symm⟩
      · rintro ⟨hsound, rfl⟩
        exact ⟨_, ⟨hsound, rfl⟩, rfl⟩

end

end ObjectQuery
