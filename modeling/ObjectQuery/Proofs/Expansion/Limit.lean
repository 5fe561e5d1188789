import ObjectQuery.Proofs.Comparison
import ObjectQuery.Proofs.Expansion.Basic

/-!
# The limit of an expansion

The limit on how deep subqueries may nest decides nothing but whether an
expansion is refused. Under a larger limit, a model that can be expanded is
expanded in the same way, and one that is malformed is refused with the same
error.

The expansion counts down what is left of the limit. A machine counts up
instead, in a word of 32 bits that might overflow. `expandCounting` does so,
and it makes no difference, whatever would happen at an overflow: the next
depth is only counted where the limit, which is itself such a word, is not
yet reached.

## Main results

* `expandWithin_agrees` — expanding agrees with expanding under a larger limit.
* `expandCounting_eq` — counting up in a word is counting down.
-/

namespace ObjectQuery

open Traced (Comparison)
open Traced.Comparison (Agree)

/-- Subqueries nest deeper than allowed. -/
def ExpansionError.IsTooDeep : ExpansionError → Prop
  | .malformed _ => False
  | .tooDeep _ => True

namespace Expansion

/-- The first expansion may only give up where subqueries nest too deep. -/
def comparison : Comparison ExpansionEvent ExpansionError :=
  ⟨ExpansionError.IsTooDeep, fun _ => True⟩

end Expansion

open Expansion (comparison)

/-! ## Clauses -/

section

variable {replace replace' : QueryModel → Expansion Expr}

/-- Two walks through an expression agree where they agree on what takes the place of
a subquery. -/
theorem Expr.rebuild_agrees (h : ∀ nested, comparison.Agree (replace nested) (replace' nested))
    (e : Expr) : comparison.Agree (e.rebuild (Expansion.rebuilder replace))
      (e.rebuild (Expansion.rebuilder replace')) := by
  refine Expr.rebuild_related _ _ (R := comparison.Agree) .pure
    (fun hx hf => hx.bind fun a _ => hf a) ?_ (fun _ => .ofExcept _) (fun _ => .ofExcept _) e
  intro e
  cases e with
  | subquery model => exact h model
  | _ => exact .pure _

end

/-- Going through the clauses of a model in two ways agrees where the ways agree on
every expression. -/
theorem QueryModel.mapClausesM_agrees {f g : Expr → Expansion Expr}
    (h : ∀ e, comparison.Agree (f e) (g e)) (model : QueryModel) :
    comparison.Agree (model.mapClausesM f) (model.mapClausesM g) := by
  have hoption : ∀ o : Option Expr,
      comparison.Agree (mapOptionM f o) (mapOptionM g o) := by
    intro o
    cases o with
    | none => exact .pure none
    | some e => exact (h e).bind fun e' _ => .pure (some e')
  have hordering : ∀ o, comparison.Agree (mapOrderingM f o) (mapOrderingM g o) := fun o =>
    (h o.key).bind fun key _ => .pure { o with key := key }
  have hoperator : ∀ o, comparison.Agree (mapOperatorM f o) (mapOperatorM g o) := by
    intro o
    unfold mapOperatorM
    cases o.operand? with
    | none => exact .pure o
    | some e => exact (h e).bind fun e' _ => .pure (o.withOperand e')
  exact (hoption _).bind fun selector _ =>
    (Agree.mapM (List.forall₂_same.mpr fun o _ => hordering o)).bind fun orderings _ =>
      (Agree.mapM (List.forall₂_same.mpr fun o _ => hoperator o)).bind fun operators _ =>
        (hoption _).bind fun filter _ => (hoption _).bind fun having _ => .pure _

/-! ## A larger limit -/

variable {limit limit' budget budget' : Nat}

/-- An expansion agrees with one in which subqueries may nest deeper. The induction is
on how deep they may nest. -/
theorem expandWithin_agrees (hbudget : budget ≤ budget') (model : QueryModel) :
    comparison.Agree (model.expandWithin limit budget) (model.expandWithin limit' budget') := by
  induction budget generalizing budget' model with
  | zero =>
      rw [QueryModel.expandWithin_eq, QueryModel.expandWithin_eq]
      exact QueryModel.mapClausesM_agrees
        (Expr.rebuild_agrees fun nested => .givesUp trivial _) model
  | succ budget ih =>
      obtain ⟨budget', rfl⟩ := Nat.exists_eq_add_of_lt hbudget
      rw [QueryModel.expandWithin_eq, QueryModel.expandWithin_eq]
      refine QueryModel.mapClausesM_agrees (Expr.rebuild_agrees fun nested => ?_) model
      exact (ih (by omega) nested).bind fun nested' _ => .refl fun _ _ => trivial

/-! ## Counting in a word -/

/-- The next number is counted exactly where it fits into a word. -/
theorem toNat_add_one {depth : UInt32} (h : depth.toNat + 1 < UInt32.size) :
    (depth + 1).toNat = depth.toNat + 1 := by
  rw [UInt32.toNat_add]
  exact Nat.mod_eq_of_lt h

/-- The expansion of a model that has `depth` subqueries around it, counted in a word.
Were the count to overflow, the error would be `overflow`. -/
def QueryModel.expandCounting (overflow : ExpansionError) (limit depth : UInt32)
    (model : QueryModel) : Expansion QueryModel :=
  model.mapClausesM <| Expr.rebuild <| Expansion.rebuilder fun nested =>
    if limit ≤ depth then throw (.tooDeep limit.toNat)
    else if _hfits : depth.toNat + 1 < UInt32.size then do
      Expansion.ofSubquery (← nested.expandCounting overflow limit (depth + 1))
    else throw overflow
termination_by UInt32.size - depth.toNat
decreasing_by
  rw [toNat_add_one _hfits]
  omega

/-- Counting up in a word is counting down what is left of the limit: no overflow is
ever met. The induction is on what is left. -/
theorem expandCounting_eq (overflow : ExpansionError) {limit depth : UInt32}
    (hdepth : depth ≤ limit) (model : QueryModel) :
    model.expandCounting overflow limit depth =
      model.expandWithin limit.toNat (limit.toNat - depth.toNat) := by
  obtain ⟨left, hleft⟩ := Nat.exists_eq_add_of_le (UInt32.le_iff_toNat_le.mp hdepth)
  induction left generalizing depth model with
  | zero =>
      have hreached : limit ≤ depth := UInt32.le_iff_toNat_le.mpr (by omega)
      rw [QueryModel.expandCounting, QueryModel.expandWithin_eq,
        show limit.toNat - depth.toNat = 0 by omega]
      simp only [if_pos hreached]
      rfl
  | succ left ih =>
      have hopen : ¬limit ≤ depth := by
        rw [UInt32.le_iff_toNat_le]
        omega
      have hfits : depth.toNat + 1 < UInt32.size := by
        have hword := limit.toNat_lt
        show depth.toNat + 1 < 2 ^ 32
        omega
      have hnext := toNat_add_one hfits
      rw [QueryModel.expandCounting, QueryModel.expandWithin_eq,
        show limit.toNat - depth.toNat = left + 1 by omega]
      simp only [if_neg hopen, dif_pos hfits]
      congr 3
      funext nested
      rw [Expansion.replacement, ih (UInt32.le_iff_toNat_le.mpr (by omega)) nested (by omega),
        hnext, show limit.toNat - (depth.toNat + 1) = left by omega]

/-- Counting up from nothing in a word is expanding. -/
theorem expandCounting_zero (overflow : ExpansionError) (limit : UInt32) (model : QueryModel) :
    model.expandCounting overflow limit 0 = model.expand limit.toNat :=
  expandCounting_eq overflow (UInt32.le_iff_toNat_le.mpr (Nat.zero_le _)) model

end ObjectQuery
