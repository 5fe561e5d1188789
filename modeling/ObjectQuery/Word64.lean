/-!
# Sixty-four bit integers that never wrap

Integers are signed words of sixty-four bits. An operation on them is the
operation on whole numbers, followed by the question whether the result
fits; where it does not, there is no result. `exactly?` is that question,
and every operation below is one use of it, so that an answer is always the
exact one.

## Main results

* `exactly?_eq_some_iff` — a word is the answer exactly when its value is
  the number asked for.
-/

namespace ObjectQuery.Word64

/-- The word with the value `n`, if there is one. -/
def exactly? (n : Int) : Option Int64 :=
  if Int64.minValue.toInt ≤ n ∧ n ≤ Int64.maxValue.toInt then some (Int64.ofInt n) else none

theorem exactly?_eq_some_iff {n : Int} {w : Int64} : exactly? n = some w ↔ w.toInt = n := by
  unfold exactly?
  constructor
  · intro h
    split at h
    · next hn =>
      obtain rfl := Option.some.inj h
      rw [Int64.toInt_minValue, Int64.toInt_maxValue] at hn
      exact Int64.toInt_ofInt_of_le hn.1 (by omega)
    · simp at h
  · rintro rfl
    rw [if_pos ⟨Int64.minValue_le_toInt w, Int64.toInt_le w⟩, Int64.ofInt_toInt]

/-- The sum of two words. -/
def add? (a b : Int64) : Option Int64 := exactly? (a.toInt + b.toInt)

/-- The difference of two words. -/
def sub? (a b : Int64) : Option Int64 := exactly? (a.toInt - b.toInt)

/-- The product of two words. -/
def mul? (a b : Int64) : Option Int64 := exactly? (a.toInt * b.toInt)

/-- The quotient of two words without its fraction. -/
def div? (a b : Int64) : Option Int64 := exactly? (a.toInt.tdiv b.toInt)

/-- The negative of a word. -/
def neg? (a : Int64) : Option Int64 := exactly? (-a.toInt)

/-- The magnitude of a word. -/
def abs? (a : Int64) : Option Int64 := exactly? a.toInt.natAbs

/-- The double nearest to a word; halfway between two, the one whose last bit
is zero. -/
def toDouble (a : Int64) : Float := .ofModel (.ofInt64 a)

/-- The decimal text of a word. -/
def text (a : Int64) : String := toString a.toInt

end ObjectQuery.Word64
