import ObjectQuery.Proofs.Expansion.Source

/-!
# The parts of a source that was taken apart

A source that is taken apart falls into parts. Those that were in decision
position, the tests of its conditionals and the left operands of its
coalesces, come to stand beside the subqueries. A branch becomes the source
of a subquery of its own, unless it denotes no collection; then it is left
out and stands in place of a subquery as it is.

What is in place of the source is made of these parts and nothing else, so
the subqueries that it holds are those held by the exposed parts, and one
for each wrapped part.

## Main definitions

* `Expr.parts` — the parts of an expression in branch position.
* `Expr.leaves` — what a source comes down to, its decisions aside.

## Main results

* `inPlace_holds_iff` — the subqueries of what stands in place of a source.
* `not_leftOut_of_leaves` — nothing is left out of a source of collections.
-/

namespace ObjectQuery

/-- What becomes of a part of a source. -/
inductive SourcePart where
  /-- It decides between the branches. -/
  | hoisted (e : Expr)
  /-- It is the source of a subquery of its own. -/
  | wrapped (e : Expr)
  /-- It stands in place of a subquery as it is. -/
  | leftOut (e : Expr)

/-- The part itself. -/
def SourcePart.expr : SourcePart → Expr
  | .hoisted e | .wrapped e | .leftOut e => e

/-- A branch that is not expanded. -/
def Expr.wholePart (e : Expr) : SourcePart :=
  if e.type.isCollection then .wrapped e else .leftOut e

mutual

/-- The parts of an expression in branch position, beside a branch that is
expanded. -/
def Expr.parts (own : List String) : Expr → List SourcePart
  | .conditional test whenTrue whenFalse =>
    if (Expr.conditional test whenTrue whenFalse).expands own then
      .hoisted test :: (branchParts own whenTrue ++ branchParts own whenFalse)
    else [(Expr.conditional test whenTrue whenFalse).wholePart]
  | .coalesce left right =>
    if (Expr.coalesce left right).expands own then
      .hoisted (left.getD default) :: (branchParts own left ++ branchParts own right)
    else [(Expr.coalesce left right).wholePart]
  | e => [e.wholePart]

/-- The parts of a branch that may be missing. -/
def branchParts (own : List String) : Option Expr → List SourcePart
  | none => []
  | some e => e.parts own

end

section

variable {own : List String} {e : Expr}

theorem Expr.parts_eq_whole (h : e.expands own = false) : e.parts own = [e.wholePart] := by
  cases e with
  | conditional test whenTrue whenFalse => rw [parts, h, if_neg Bool.false_ne_true]
  | coalesce left right => rw [parts, h, if_neg Bool.false_ne_true]
  | _ => rfl

theorem Expr.parts_conditional {test a b : Expr}
    (h : (conditional test (some a) (some b)).expands own = true) :
    (conditional test (some a) (some b)).parts own =
      .hoisted test :: (a.parts own ++ b.parts own) := by
  rw [parts, if_pos h, branchParts, branchParts]

theorem Expr.parts_coalesce {a b : Expr}
    (h : (coalesce (some a) (some b)).expands own = true) :
    (coalesce (some a) (some b)).parts own = .hoisted a :: (a.parts own ++ b.parts own) := by
  rw [parts, if_pos h, branchParts, branchParts]
  rfl

/-- A sound expression in branch position: either nothing in it is expanded,
or it decides between two further branches. -/
inductive Expr.IsBranch (own : List String) : Expr → Prop
  | whole {e : Expr} : e.IsSound → e.expands own = false → IsBranch own e
  | conditional {test a b : Expr} : test.IsSound →
    (Expr.conditional test (some a) (some b)).expands own = true →
    IsBranch own a → IsBranch own b → IsBranch own (.conditional test (some a) (some b))
  | coalesce {a b : Expr} : a.IsSound →
    (Expr.coalesce (some a) (some b)).expands own = true →
    IsBranch own a → IsBranch own b → IsBranch own (.coalesce (some a) (some b))

theorem Expr.isBranch (own : List String) (hsound : e.IsSound) : e.IsBranch own := by
  induction e using Expr.operandInduction with
  | conditional test whenTrue whenFalse ihTest ihTrue ihFalse =>
      obtain ⟨htest, a, b, rfl, rfl, -, ha, hb⟩ := isSound_conditional.mp hsound
      by_cases h : (Expr.conditional test (some a) (some b)).expands own = true
      · exact .conditional htest h (ihTrue a rfl ha) (ihFalse b rfl hb)
      · exact .whole hsound (Bool.eq_false_iff.mpr h)
  | coalesce left right ihLeft ihRight =>
      obtain ⟨a, b, rfl, rfl, -, ha, hb⟩ := isSound_coalesce.mp hsound
      by_cases h : (Expr.coalesce (some a) (some b)).expands own = true
      · exact .coalesce ha h (ihLeft a rfl ha) (ihRight b rfl hb)
      · exact .whole hsound (Bool.eq_false_iff.mpr h)
  | _ => exact .whole hsound (Expr.expands_eq_false rfl)

theorem Expr.wholePart_expr (e : Expr) : e.wholePart.expr = e := by
  unfold wholePart
  split <;> rfl

namespace Expr.IsBranch

/-- The parts of a sound source are sound. -/
theorem isSound_of_mem_parts (h : e.IsBranch own) {part : SourcePart}
    (hpart : part ∈ e.parts own) : part.expr.IsSound := by
  induction h with
  | whole hsound hexpands =>
      rw [parts_eq_whole hexpands] at hpart
      rw [List.mem_singleton.mp hpart, wholePart_expr]
      exact hsound
  | conditional htest hexpands _ _ iha ihb =>
      rw [parts_conditional hexpands] at hpart
      rcases List.mem_cons.mp hpart with rfl | hpart
      · exact htest
      rcases List.mem_append.mp hpart with hpart | hpart
      · exact iha hpart
      · exact ihb hpart
  | coalesce hleft hexpands _ _ iha ihb =>
      rw [parts_coalesce hexpands] at hpart
      rcases List.mem_cons.mp hpart with rfl | hpart
      · exact hleft
      rcases List.mem_append.mp hpart with hpart | hpart
      · exact iha hpart
      · exact ihb hpart

/-- A part that became the source of a subquery is not expanded any further. -/
theorem expands_of_wrapped (h : e.IsBranch own) {w : Expr}
    (hpart : .wrapped w ∈ e.parts own) : w.expands own = false := by
  induction h with
  | whole hsound hexpands =>
      rw [parts_eq_whole hexpands] at hpart
      have heq := congrArg SourcePart.expr (List.mem_singleton.mp hpart)
      rw [wholePart_expr] at heq
      rw [show w = _ from heq]
      exact hexpands
  | conditional htest hexpands _ _ iha ihb =>
      rw [parts_conditional hexpands] at hpart
      rcases List.mem_cons.mp hpart with hpart | hpart
      · cases hpart
      rcases List.mem_append.mp hpart with hpart | hpart
      · exact iha hpart
      · exact ihb hpart
  | coalesce hleft hexpands _ _ iha ihb =>
      rw [parts_coalesce hexpands] at hpart
      rcases List.mem_cons.mp hpart with hpart | hpart
      · cases hpart
      rcases List.mem_append.mp hpart with hpart | hpart
      · exact iha hpart
      · exact ihb hpart

/-- Where a branch is expanded, some part became the source of a subquery. -/
theorem exists_wrapped (h : e.IsBranch own)
    (hexpands : branchExpands own (some e) = true) : ∃ w, .wrapped w ∈ e.parts own := by
  induction h with
  | @whole e hsound hwhole =>
      rw [branchExpands, hwhole, Bool.false_or, Bool.and_eq_true_iff] at hexpands
      rw [parts_eq_whole hwhole, wholePart, if_pos hexpands.2]
      exact ⟨e, List.mem_singleton_self _⟩
  | @conditional test a b htest hexpands' _ _ iha ihb =>
      rw [parts_conditional hexpands']
      rw [expands] at hexpands'
      rcases Bool.or_eq_true_iff.mp hexpands' with hbranch | hbranch
      · obtain ⟨w, hw⟩ := iha hbranch
        exact ⟨w, by simp [hw]⟩
      · obtain ⟨w, hw⟩ := ihb hbranch
        exact ⟨w, by simp [hw]⟩
  | @coalesce a b hleft hexpands' _ _ iha ihb =>
      rw [parts_coalesce hexpands']
      rw [expands] at hexpands'
      rcases Bool.or_eq_true_iff.mp hexpands' with hbranch | hbranch
      · obtain ⟨w, hw⟩ := iha hbranch
        exact ⟨w, by simp [hw]⟩
      · obtain ⟨w, hw⟩ := ihb hbranch
        exact ⟨w, by simp [hw]⟩

end Expr.IsBranch

/-! ## What stands in place of the source -/

/-- Whether the subquery over a model stands in what becomes of a part of the
source of `reader`. -/
def SourcePart.Holds (reader : QueryModel) (part : SourcePart) (model : QueryModel) : Prop :=
  match part with
  | .hoisted e | .leftOut e => e.Holds model
  | .wrapped e => model = reader.withSource e

/-- The subqueries of what stands in place of a source are those that its
parts contribute. -/
theorem inPlace_holds_iff {reader model : QueryModel} (h : e.IsBranch reader.sourceNames) :
    (e.inPlace reader).Holds model ↔
      ∃ part ∈ e.parts reader.sourceNames, part.Holds reader model := by
  induction h with
  | @whole e hsound hexpands =>
      rw [Expr.parts_eq_whole hexpands, Expr.wholePart]
      cases hcollection : e.type.isCollection with
      | true =>
          rw [Expr.inPlace_of_collection hexpands hcollection, QueryModel.reading]
          simp [SourcePart.Holds]
      | false =>
          rw [Expr.inPlace_of_not_collection hexpands hcollection]
          simp [SourcePart.Holds]
  | conditional htest hexpands _ _ iha ihb =>
      rw [Expr.inPlace_conditional hexpands, Expr.parts_conditional hexpands]
      simp [iha, ihb, or_and_right, exists_or, SourcePart.Holds]
  | coalesce hleft hexpands _ _ iha ihb =>
      rw [Expr.inPlace_coalesce hexpands, Expr.parts_coalesce hexpands, Expr.isPresent]
      simp [iha, ihb, or_and_right, exists_or, SourcePart.Holds]

/-! ## The leaves of a source -/

mutual

/-- The expressions in branch position that branch no further. -/
def Expr.leaves : Expr → List Expr
  | .conditional _ whenTrue whenFalse => branchLeaves whenTrue ++ branchLeaves whenFalse
  | .coalesce left right => branchLeaves left ++ branchLeaves right
  | e => [e]

/-- The leaves of a branch that may be missing. -/
def branchLeaves : Option Expr → List Expr
  | none => []
  | some e => e.leaves

end

/-- The type of a sound expression is that of its first leaf, nullability
aside. -/
theorem Expr.IsSound.isCollection_of_leaves (hsound : e.IsSound)
    (h : ∀ leaf ∈ e.leaves, leaf.type.isCollection = true) : e.type.isCollection = true := by
  induction e using Expr.operandInduction with
  | conditional test whenTrue whenFalse _ ihTrue _ =>
      obtain ⟨-, a, b, rfl, rfl, -, ha, -⟩ := isSound_conditional.mp hsound
      rw [type]
      refine ihTrue a rfl ha fun leaf hleaf => h leaf ?_
      simp [leaves, branchLeaves, hleaf]
  | coalesce left right ihLeft _ =>
      obtain ⟨a, b, rfl, rfl, -, ha, -⟩ := isSound_coalesce.mp hsound
      rw [type, StaticType.isCollection_nonNull]
      refine ihLeft a rfl ha fun leaf hleaf => h leaf ?_
      simp [leaves, branchLeaves, hleaf]
  | _ => exact h _ (by simp [leaves])

/-- A branch that is left out is no collection, and its leaves are leaves of
the source. -/
theorem Expr.IsBranch.leaves_of_leftOut (h : e.IsBranch own) {x : Expr}
    (hx : .leftOut x ∈ e.parts own) :
    x.type.isCollection = false ∧ ∀ leaf ∈ x.leaves, leaf ∈ e.leaves := by
  induction h with
  | @whole e hsound hexpands =>
      rw [parts_eq_whole hexpands, wholePart] at hx
      cases hcollection : e.type.isCollection with
      | true =>
          rw [hcollection, if_pos rfl] at hx
          cases List.mem_singleton.mp hx
      | false =>
          rw [hcollection, if_neg Bool.false_ne_true] at hx
          obtain rfl := SourcePart.leftOut.inj (List.mem_singleton.mp hx)
          exact ⟨hcollection, fun leaf hleaf => hleaf⟩
  | @conditional test a b htest hexpands _ _ iha ihb =>
      rw [parts_conditional hexpands] at hx
      rcases List.mem_append.mp (List.mem_of_ne_of_mem (fun h => by cases h) hx) with hx | hx
      · obtain ⟨hcollection, hleaves⟩ := iha hx
        exact ⟨hcollection, fun leaf hleaf => by simp [leaves, branchLeaves, hleaves leaf hleaf]⟩
      · obtain ⟨hcollection, hleaves⟩ := ihb hx
        exact ⟨hcollection, fun leaf hleaf => by simp [leaves, branchLeaves, hleaves leaf hleaf]⟩
  | @coalesce a b hleft hexpands _ _ iha ihb =>
      rw [parts_coalesce hexpands] at hx
      rcases List.mem_append.mp (List.mem_of_ne_of_mem (fun h => by cases h) hx) with hx | hx
      · obtain ⟨hcollection, hleaves⟩ := iha hx
        exact ⟨hcollection, fun leaf hleaf => by simp [leaves, branchLeaves, hleaves leaf hleaf]⟩
      · obtain ⟨hcollection, hleaves⟩ := ihb hx
        exact ⟨hcollection, fun leaf hleaf => by simp [leaves, branchLeaves, hleaves leaf hleaf]⟩

/-- Where all leaves are collections, nothing is left out. -/
theorem Expr.not_leftOut_of_leaves (hsound : e.IsSound)
    (h : ∀ leaf ∈ e.leaves, leaf.type.isCollection = true) (x : Expr) :
    .leftOut x ∉ e.parts own := by
  intro hx
  have hbranch := Expr.isBranch own hsound
  obtain ⟨hcollection, hleaves⟩ := hbranch.leaves_of_leftOut hx
  have hpart : x.IsSound := hbranch.isSound_of_mem_parts hx
  rw [hpart.isCollection_of_leaves fun leaf hleaf => h leaf (hleaves leaf hleaf)] at hcollection
  cases hcollection

end

end ObjectQuery
