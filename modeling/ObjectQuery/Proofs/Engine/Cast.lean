import ObjectQuery.Engine.Run
import ObjectQuery.Hql.Build

/-!
# Casts that are not written

A cast to the untyped object or to a nullable type is not written into a query:
such a cast is expected to keep every value. The engine keeps values when it
casts to the untyped object. A cast to a nullable type, however, is to it a cast
to the type inside that leaves null alone, and three types convert values.
Decimals become integers, integers become decimals, and everything becomes text.

So it depends on the value whether the cast that is not written is missed. To be
safe for all nodes, it has to be to a type that converts nothing.

## Main definitions

* `Value.isConvertedTo` — a cast to a type gives another value.
* `StaticType.converts` — a cast to the type may give another value.

## Main results

* `Hql.Node.castTo_nullable_eval` — when a cast to a nullable type need not be
  written.
-/

namespace ObjectQuery

/-- Whether a cast to a type, nullability taken away, gives a value other than the given
one. -/
def Value.isConvertedTo : StaticType → Value → Bool
  | .integer, .decimal _ | .decimal, .integer _ => true
  | .string, .string _ | .string, .null => false
  | .string, _ => true
  | _, _ => false

/-- Whether some values are converted when they are cast to a type. -/
def StaticType.converts (type : StaticType) : Bool :=
  match type.nonNull with
  | .integer | .decimal | .string => true
  | _ => false

namespace Value

variable {type : StaticType} {v : Value}

/-- Null is not converted, and otherwise the kind of a value tells whether it is. -/
theorem cast_eq_self_iff : v.cast type = v ↔ v.isConvertedTo type.nonNull = false := by
  unfold cast
  cases hnull : v.isNull with
  | true =>
      obtain rfl : v = .null := by cases v <;> first | rfl | cases hnull
      cases type.nonNull <;> simp [isConvertedTo]
  | false =>
      cases type.nonNull <;> cases v <;> simp_all [castNonNull, isConvertedTo, isNull]

/-- Of each type that converts values, some value is converted. -/
theorem exists_isConvertedTo_iff :
    (∃ v : Value, v.isConvertedTo type.nonNull = true) ↔ type.converts = true := by
  unfold StaticType.converts
  cases type.nonNull with
  | integer => exact iff_of_true ⟨.decimal 0, rfl⟩ rfl
  | decimal => exact iff_of_true ⟨.integer 0, rfl⟩ rfl
  | string => exact iff_of_true ⟨.integer 0, rfl⟩ rfl
  | _ => exact iff_of_false (fun ⟨v, hv⟩ => by cases v <;> cases hv) Bool.false_ne_true

end Value

namespace Hql.Node

variable {n : Node} {type : StaticType} {env : Environment} {scope : Scope}

/-- A cast of a node is missed exactly where its value is converted. -/
theorem eval_eq_cast_eval_iff :
    n.eval env scope = (cast n type).eval env scope ↔
      ∀ v, n.eval env scope = .ok v → v.isConvertedTo type.nonNull = false := by
  rw [eval]
  cases n.eval env scope with
  | error e => exact iff_of_true rfl nofun
  | ok v =>
      show Except.ok v = .ok (v.cast type) ↔ _
      rw [Except.ok.injEq, eq_comm, Value.cast_eq_self_iff]
      constructor
      · rintro h _ ⟨⟩
        exact h
      · exact fun h => h v rfl

/-- An environment that supplies a value. -/
def supplied (v : Value) : Environment :=
  ⟨⟨[]⟩, [("v", v)]⟩

/-- A cast to a nullable type, which is not written, need not be written exactly if the type inside
does not convert the value of the node. It need not be for any node exactly if that type converts
no values at all. A cast to the untyped object never need be. -/
theorem castTo_nullable_eval (type : StaticType) :
    (∀ (n : Node) (env : Environment) (scope : Scope),
      (n.castTo (.nullable type)).eval env scope = (cast n (.nullable type)).eval env scope ↔
        ∀ v, n.eval env scope = .ok v → v.isConvertedTo type.nonNull = false) ∧
    ((∀ (n : Node) (env : Environment) (scope : Scope),
      (n.castTo (.nullable type)).eval env scope = (cast n (.nullable type)).eval env scope) ↔
        type.converts = false) ∧
    ∀ (n : Node) (env : Environment) (scope : Scope),
      (n.castTo .object).eval env scope = (cast n .object).eval env scope := by
  have hnullable : ∀ (n : Node) (env : Environment) (scope : Scope),
      (n.castTo (.nullable type)).eval env scope = (cast n (.nullable type)).eval env scope ↔
        ∀ v, n.eval env scope = .ok v → v.isConvertedTo type.nonNull = false :=
    fun n env scope => eval_eq_cast_eval_iff
  refine ⟨hnullable, ?_, fun n env scope => eval_eq_cast_eval_iff.mpr fun v _ => ?_⟩
  · rw [← Bool.not_eq_true, ← Value.exists_isConvertedTo_iff, not_exists]
    constructor
    · -- a parameter may supply any value
      intro h v
      have hsupplied := (hnullable (.parameter "v") (supplied v) []).mp (h ..) v rfl
      exact Bool.eq_false_iff.mp hsupplied
    · exact fun h n env scope => (hnullable n env scope).mpr fun v _ => Bool.eq_false_iff.mpr (h v)
  · cases v <;> rfl

/-- A fraction stays where an integer is asked for, an integer where a decimal is, and a number where
a text is. -/
theorem castTo_ne_cast :
    ((parameter "v").castTo (.nullable .integer)).eval (supplied (.decimal 2.5)) [] ≠
      (cast (.parameter "v") (.nullable .integer)).eval (supplied (.decimal 2.5)) [] ∧
    ((parameter "v").castTo (.nullable .decimal)).eval (supplied (.integer 2)) [] ≠
      (cast (.parameter "v") (.nullable .decimal)).eval (supplied (.integer 2)) [] ∧
    ((parameter "v").castTo (.nullable .string)).eval (supplied (.integer 2)) [] ≠
      (cast (.parameter "v") (.nullable .string)).eval (supplied (.integer 2)) [] := by
  refine ⟨?_, ?_, ?_⟩
  · show Except.ok (Value.decimal 2.5) ≠ .ok (.integer _)
    nofun
  · show Except.ok (Value.integer 2) ≠ .ok (.decimal _)
    nofun
  · show Except.ok (Value.integer 2) ≠ .ok (.string _)
    nofun

end Hql.Node

end ObjectQuery
