import ObjectQuery.Engine.Functions

/-!
# Integers are computed exactly

An operation on integers has an exact result among the whole numbers, or none:
null stays null, and nothing is divided by zero. The operation gives the
exact result where it fits into a word, null where there is none, and
otherwise overflows. No other outcome is possible, so nothing ever wraps.

## Main definitions

* `Word64.Fits` — a whole number is the value of a word.
* `BinaryOperator.result?` — the exact result of an operator.
* `Value.Computes` — an outcome is the exact result, or an overflow where it
  does not fit.

## Main results

* `Value.arithmetic_computes`, `Value.negate_computes`, `Value.abs_computes` —
  each operation on integers and nulls computes its exact result.
-/

namespace ObjectQuery

/-! ## Numbers that fit into a word -/

namespace Word64

/-- Whether a whole number is the value of a word. -/
def Fits (n : Int) : Prop :=
  Int64.minValue.toInt ≤ n ∧ n ≤ Int64.maxValue.toInt

instance : DecidablePred Fits := fun _ => inferInstanceAs (Decidable (_ ∧ _))

variable {n : Int}

theorem fits_iff : Fits n ↔ -9223372036854775808 ≤ n ∧ n ≤ 9223372036854775807 := by
  rw [Fits, Int64.toInt_minValue, Int64.toInt_maxValue]
  rfl

theorem fits_toInt (w : Int64) : Fits w.toInt :=
  ⟨Int64.minValue_le_toInt w, Int64.toInt_le w⟩

theorem exactly?_of_fits (h : Fits n) : ∃ w, exactly? n = some w ∧ w.toInt = n := by
  have hw : exactly? n = some (Int64.ofInt n) := if_pos h
  exact ⟨_, hw, exactly?_eq_some_iff.mp hw⟩

theorem exactly?_of_not_fits (h : ¬Fits n) : exactly? n = none :=
  if_neg h

end Word64

open Word64 (Fits)

/-- The exact result of an arithmetic operator. A quotient loses its fraction, and there is
none by zero. -/
def BinaryOperator.result? : BinaryOperator → Int → Int → Option Int
  | .add, x, y => some (x + y)
  | .subtract, x, y => some (x - y)
  | .multiply, x, y => some (x * y)
  | .divide, x, y => if y = 0 then none else some (x.tdiv y)
  | _, _, _ => none

namespace Value

/-! ## Exact outcomes -/

/-- An outcome is the exact number, null where there is none, or an overflow where the number
does not fit. -/
inductive Computes : Option Int → Outcome Value → Prop
  | null : Computes none (.ok .null)
  | integer (w : Int64) : Computes (some w.toInt) (.ok (.integer w))
  | overflow {n : Int} (h : ¬Fits n) (operation : Overflow) :
      Computes (some n) (.error (.overflow operation))

/-- The whole number that a value is, if it is one. -/
def whole? : Value → Option Int
  | .integer w => some w.toInt
  | _ => none

variable {x y : Option Int} {n : Int} {a b v : Value} {outcome : Outcome Value}

theorem computes_integer_iff {w : Int64} :
    Computes x (.ok (.integer w)) ↔ x = some w.toInt := by
  constructor
  · intro h
    cases h
    rfl
  · rintro rfl
    exact .integer w

theorem computes_null_iff : Computes x (.ok .null) ↔ x = none := by
  constructor
  · intro h
    cases h
    rfl
  · rintro rfl
    exact .null

theorem Computes.eq_integer_or_null (h : Computes x (.ok v)) :
    (∃ w, v = .integer w) ∨ v = .null := by
  cases h with
  | null => exact .inr rfl
  | integer w => exact .inl ⟨w, rfl⟩

/-- There is one exact result. -/
theorem Computes.eq (ha : Computes x (.ok a)) (hb : Computes x (.ok b)) : a = b := by
  rcases ha.eq_integer_or_null with ⟨w, rfl⟩ | rfl
  · rcases hb.eq_integer_or_null with ⟨w', rfl⟩ | rfl
    · have hwords := (computes_integer_iff.mp ha).symm.trans (computes_integer_iff.mp hb)
      rw [Int64.toInt_inj.mp (Option.some.inj hwords)]
    · cases (computes_integer_iff.mp ha).symm.trans (computes_null_iff.mp hb)
  · rw [computes_null_iff.mp ha] at hb
    cases hb
    rfl

/-- Whether the exact result fits decides between a value and an overflow. -/
theorem Computes.settles (h : Computes x outcome) :
    ((∀ n, x = some n → Fits n) ∧ ∃ v, outcome = .ok v ∧ Computes x (.ok v)) ∨
      (∃ n, x = some n ∧ ¬Fits n) ∧ ∃ operation, outcome = .error (.overflow operation) := by
  cases h with
  | null => exact .inl ⟨nofun, .null, rfl, .null⟩
  | integer w =>
      refine .inl ⟨?_, .integer w, rfl, .integer w⟩
      rintro _ ⟨⟩
      exact Word64.fits_toInt w
  | overflow hfits operation => exact .inr ⟨⟨_, rfl, hfits⟩, operation, rfl⟩

/-- Whether the number fits decides whether a word is the result. -/
theorem orOverflow_computes (operation : Overflow) (n : Int) :
    Computes (some n) (orOverflow operation (Word64.exactly? n)) := by
  by_cases h : Fits n
  · obtain ⟨w, hw, rfl⟩ := Word64.exactly?_of_fits h
    rw [hw]
    exact .integer w
  · rw [Word64.exactly?_of_not_fits h]
    exact .overflow h operation

/-! ## Operations -/

private theorem integerArithmetic_computes {operator : BinaryOperator}
    (hoperator : operator.isArithmetic = true) (m n : Int64) :
    Computes (operator.result? m.toInt n.toInt) (integerArithmetic operator m n) := by
  cases operator with
  | add => exact orOverflow_computes _ _
  | subtract => exact orOverflow_computes _ _
  | multiply => exact orOverflow_computes _ _
  | divide =>
      have hzero : n.toInt = 0 ↔ n = 0 := by
        rw [← Int64.toInt_zero, Int64.toInt_inj]
      show Computes (if n.toInt = 0 then none else _)
        (if n = 0 then _ else orOverflow (.arithmetic .divide m n) (Word64.div? m n))
      by_cases h : n = 0
      · rw [if_pos (hzero.mpr h), if_pos h]
        exact .null
      · rw [if_neg (mt hzero.mp h), if_neg h]
        exact orOverflow_computes _ _
  | _ => cases hoperator

/-- Arithmetic on integers and nulls computes the exact result. -/
theorem arithmetic_computes {operator : BinaryOperator}
    (hoperator : operator.isArithmetic = true) (ha : Computes x (.ok a))
    (hb : Computes y (.ok b)) :
    Computes (do operator.result? (← x) (← y)) (arithmetic operator a b) := by
  cases ha with
  | null => exact .null
  | integer m =>
      cases hb with
      | null => exact .null
      | integer n => exact integerArithmetic_computes hoperator m n

theorem negate_computes (ha : Computes x (.ok a)) : Computes (x.map (-·)) a.negate := by
  cases ha with
  | null => exact .null
  | integer m => exact orOverflow_computes _ _

theorem abs_computes (ha : Computes x (.ok a)) :
    Computes (x.map fun n => (n.natAbs : Int)) a.abs := by
  cases ha with
  | null => exact .null
  | integer m => exact orOverflow_computes _ _

end Value

end ObjectQuery
