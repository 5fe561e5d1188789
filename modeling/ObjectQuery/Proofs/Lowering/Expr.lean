import ObjectQuery.Proofs.Expr.Walk
import ObjectQuery.Proofs.Lowering.Basic

/-!
# Successful lowering of expressions

When an expression can be lowered, and to which node, constructor by
constructor. Calls are left to a module of their own, since what a call
becomes depends on how it is distributed over its operands.

Every statement is about a registry, a limit and a depth, which are the same
for an expression and its operands.

## Main definitions

* `Expr.LowersTo`, `Expr.Lowers` — an expression becomes a node, or some node.
-/

namespace ObjectQuery

open Hql (Node Query)

/-- The expression becomes the node. -/
def Expr.LowersTo (registry : Registry) (limit depth : Nat) (e : Expr) (n : Node) : Prop :=
  (e.lower registry limit depth).outcome = .ok n

/-- The expression can be lowered. -/
def Expr.Lowers (registry : Registry) (limit depth : Nat) (e : Expr) : Prop :=
  ∃ n, e.LowersTo registry limit depth n

namespace Expr

section

variable {registry : Registry} {limit depth : Nat} {n : Node}

/-- An expression becomes one node at most. -/
theorem LowersTo.unique {e : Expr} {n' : Node} (h : e.LowersTo registry limit depth n)
    (h' : e.LowersTo registry limit depth n') : n = n' :=
  Except.ok.inj (h.symm.trans h')

theorem require_outcome_eq_ok {check : Except ModelError Unit} {u : Unit} :
    (Lowering.require check).outcome = .ok u ↔ check = .ok () := by
  rw [Lowering.require, Traced.outcome_ofExcept, mapError_eq_ok_iff]

theorem lowersTo_unary {operator : UnaryOperator} {operand : Expr} {type : StaticType} :
    (unary operator operand type).LowersTo registry limit depth n ↔
      ∃ a, operand.LowersTo registry limit depth a ∧ n = unaryNode operator a type := by
  refine Traced.outcome_bind_eq_ok.trans (exists_congr fun a => and_congr_right fun _ => ?_)
  rw [Traced.outcome_pure, Except.ok.injEq, eq_comm]

theorem lowersTo_binary {operator : BinaryOperator} {left right : Expr} :
    (binary operator left right).LowersTo registry limit depth n ↔
      ∃ a b, left.LowersTo registry limit depth a ∧ right.LowersTo registry limit depth b ∧
        n = binaryNode operator a b := by
  constructor
  · intro h
    obtain ⟨a, ha, h⟩ := Traced.outcome_bind_eq_ok.mp h
    obtain ⟨b, hb, h⟩ := Traced.outcome_bind_eq_ok.mp h
    exact ⟨a, b, ha, hb, (Except.ok.inj h).symm⟩
  · rintro ⟨a, b, ha, hb, rfl⟩
    exact Traced.outcome_bind_eq_ok.mpr ⟨a, ha, Traced.outcome_bind_eq_ok.mpr ⟨b, hb, rfl⟩⟩

theorem lowersTo_member {target : Expr} {name : String} {type : StaticType} :
    (member target name type).LowersTo registry limit depth n ↔
      ∃ a, target.LowersTo registry limit depth a ∧ n = .dot a name := by
  refine Traced.outcome_bind_eq_ok.trans (exists_congr fun a => and_congr_right fun _ => ?_)
  rw [Traced.outcome_pure, Except.ok.injEq, eq_comm]

theorem lowersTo_conditional {test : Expr} {whenTrue whenFalse : Option Expr} :
    (conditional test whenTrue whenFalse).LowersTo registry limit depth n ↔
      ∃ a b, whenTrue = some a ∧ whenFalse = some b ∧ a.fitsBeside b = true ∧
        ∃ nt na nb, test.LowersTo registry limit depth nt ∧ a.LowersTo registry limit depth na ∧
          b.LowersTo registry limit depth nb ∧ n = .ifThenElse nt na nb := by
  constructor
  · intro h
    obtain ⟨_, hcheck, h⟩ := Traced.outcome_bind_eq_ok.mp h
    obtain ⟨a, b, rfl, rfl, hfit⟩ := checkBranches_eq_ok_iff.mp (require_outcome_eq_ok.mp hcheck)
    obtain ⟨nt, ht, h⟩ := Traced.outcome_bind_eq_ok.mp h
    obtain ⟨na, ha, h⟩ := Traced.outcome_bind_eq_ok.mp h
    obtain ⟨nb, hb, h⟩ := Traced.outcome_bind_eq_ok.mp h
    exact ⟨a, b, rfl, rfl, hfit, nt, na, nb, ht, ha, hb, (Except.ok.inj h).symm⟩
  · rintro ⟨a, b, rfl, rfl, hfit, nt, na, nb, ht, ha, hb, rfl⟩
    refine Traced.outcome_bind_eq_ok.mpr ⟨(), require_outcome_eq_ok.mpr ?_, ?_⟩
    · exact checkBranches_eq_ok_iff.mpr ⟨a, b, rfl, rfl, hfit⟩
    · exact Traced.outcome_bind_eq_ok.mpr ⟨nt, ht, Traced.outcome_bind_eq_ok.mpr ⟨na, ha,
        Traced.outcome_bind_eq_ok.mpr ⟨nb, hb, rfl⟩⟩⟩

theorem lowersTo_coalesce {left right : Option Expr} :
    (coalesce left right).LowersTo registry limit depth n ↔
      ∃ a b, left = some a ∧ right = some b ∧ a.fitsBeside b = true ∧
        ∃ na nb, a.LowersTo registry limit depth na ∧ b.LowersTo registry limit depth nb ∧
          n = .coalesce na nb := by
  constructor
  · intro h
    obtain ⟨_, hcheck, h⟩ := Traced.outcome_bind_eq_ok.mp h
    obtain ⟨a, b, rfl, rfl, hfit⟩ := checkBranches_eq_ok_iff.mp (require_outcome_eq_ok.mp hcheck)
    obtain ⟨na, ha, h⟩ := Traced.outcome_bind_eq_ok.mp h
    obtain ⟨nb, hb, h⟩ := Traced.outcome_bind_eq_ok.mp h
    exact ⟨a, b, rfl, rfl, hfit, na, nb, ha, hb, (Except.ok.inj h).symm⟩
  · rintro ⟨a, b, rfl, rfl, hfit, na, nb, ha, hb, rfl⟩
    refine Traced.outcome_bind_eq_ok.mpr ⟨(), require_outcome_eq_ok.mpr ?_, ?_⟩
    · exact checkBranches_eq_ok_iff.mpr ⟨a, b, rfl, rfl, hfit⟩
    · exact Traced.outcome_bind_eq_ok.mpr ⟨na, ha, Traced.outcome_bind_eq_ok.mpr ⟨nb, hb, rfl⟩⟩

theorem lowersTo_subquery {model : QueryModel} :
    (subquery model).LowersTo registry limit depth n ↔
      depth < limit ∧ ∃ query, model.LowersTo registry limit (depth + 1) query ∧
        n = .ofQuery query := by
  unfold LowersTo
  rw [lower]
  by_cases h : depth < limit
  · simp only [Nat.not_le_of_lt h, if_false, Traced.outcome_bind_eq_ok, Traced.outcome_pure,
      Except.ok.injEq, QueryModel.lower_eq_ok_iff]
    constructor
    · intro hlower
      obtain ⟨_, -, query, hquery, hn⟩ := hlower
      exact ⟨h, query, hquery, hn.symm⟩
    · intro hlower
      obtain ⟨-, query, hquery, hn⟩ := hlower
      exact ⟨(), rfl, query, hquery, hn.symm⟩
  · rw [if_pos (Nat.le_of_not_lt h)]
    constructor
    · intro hlower
      cases hlower
    · intro hlower
      exact absurd hlower.1 h

end

end Expr

end ObjectQuery
