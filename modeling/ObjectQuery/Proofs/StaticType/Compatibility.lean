import Mathlib.Logic.Function.Iterate
import ObjectQuery.Proofs.StaticType

/-!
# What compatibility depends on

A type is a tower of collections and nullability over a scalar or a row of an
entity. Compatibility looks past nullability on every floor of the tower, so it
does not change when nullability is added or taken away anywhere. What decides
is what is left of two towers when nullability and the collections that both
have are taken off.

Compatibility is defined floor by floor. A test for equality in front of each
floor gives the same answers, because equal towers are compatible all the way
down.

## Main definitions

* `StaticType.bare` — a type without nullability on any floor.
* `StaticType.SameButNull` — types that differ in nullability only.
* `StaticType.Alike` — what must hold of two types that are not both
  collections.

## Main results

* `StaticType.sameButNull_iff` — types that differ in nullability only are the
  same without it.
* `StaticType.isCompatible_equal_first` — the recursion with the test for
  equality.
* `StaticType.isCompatible_spine` — the laws of compatibility.
-/

namespace ObjectQuery.StaticType

/-! ## Nullability -/

/-- The type with all nullability taken away, around its collections and inside of
them. -/
def bare : StaticType → StaticType
  | .nullable inner => inner.bare
  | .collection element => .collection element.bare
  | type => type

/-- The types are the same but for nullability, which may be added to either of them
around it or around the elements of its collections. -/
inductive SameButNull : StaticType → StaticType → Prop
  | refl (t : StaticType) : SameButNull t t
  | left {a b : StaticType} : SameButNull a b → SameButNull (.nullable a) b
  | right {a b : StaticType} : SameButNull a b → SameButNull a (.nullable b)
  | collection {a b : StaticType} : SameButNull a b →
    SameButNull (.collection a) (.collection b)

private theorem SameButNull.bare_eq {a b : StaticType} (h : a.SameButNull b) : a.bare = b.bare := by
  induction h with
  | refl => rfl
  | left _ ih => exact ih
  | right _ ih => exact ih
  | collection _ ih => rw [bare, bare, ih]

theorem SameButNull.symm {a b : StaticType} (h : a.SameButNull b) : b.SameButNull a := by
  induction h with
  | refl t => exact .refl t
  | left _ ih => exact .right ih
  | right _ ih => exact .left ih
  | collection _ ih => exact .collection ih

private theorem sameButNull_bare (t : StaticType) : t.SameButNull t.bare := by
  induction t with
  | nullable inner ih => exact .left ih
  | collection element ih => exact .collection ih
  | _ => exact .refl _

/-- Types that are the same but for nullability are the same without it. -/
theorem sameButNull_iff {a b : StaticType} : a.SameButNull b ↔ a.bare = b.bare := by
  refine ⟨SameButNull.bare_eq, fun h => ?_⟩
  induction a generalizing b with
  | nullable inner ih => exact .left (ih h)
  | collection element ih =>
      induction b with
      | nullable inner ihInner => exact .right (ihInner h)
      | collection other => exact .collection (ih (StaticType.collection.inj h))
      | _ => cases h
  | _ =>
      have hb := (sameButNull_bare b).symm
      rwa [← h] at hb

private theorem nonNull_bare (t : StaticType) : t.bare.nonNull = t.bare := by
  induction t with
  | nullable inner ih => exact ih
  | _ => rfl

private theorem bare_bare (t : StaticType) : t.bare.bare = t.bare :=
  (sameButNull_bare t).bare_eq.symm

/-- Compatibility looks past nullability on the left side, on every floor. -/
theorem isCompatible_bare_left (a b : StaticType) : a.bare.isCompatible b = a.isCompatible b := by
  induction a generalizing b with
  | nullable inner ih => rw [bare, isCompatible, ih]
  | collection element ih =>
      rw [bare, isCompatible, isCompatible]
      split
      · exact ih _
      · rfl
  | _ => rfl

private theorem isCompatible_bare (a b : StaticType) :
    a.bare.isCompatible b.bare = a.isCompatible b := by
  rw [isCompatible_bare_left, isCompatible_comm, isCompatible_bare_left, isCompatible_comm]

/-! ## Equality first -/

/-- Compatibility is the same as testing two types for equality first, without the
nullability around them, and going into the elements of collections only where they
differ. -/
theorem isCompatible_equal_first (a b : StaticType) :
    a.isCompatible b =
      (a.nonNull == b.nonNull || eitherObject a.nonNull b.nonNull ||
        match a.nonNull, b.nonNull with
        | .collection x, .collection y => x.isCompatible y
        | x, y => bothNumeric x y) := by
  induction a generalizing b with
  | nullable inner ih => exact ih b
  | collection element =>
      induction b with
      | nullable inner ihInner =>
          rw [← isCompatible_nonNull_right]
          exact (isCompatible_nonNull_right _ inner).trans ihInner
      | collection other =>
          rw [isCompatible, Bool.eq_iff_iff]
          simp only [nonNull, eitherObject, Bool.or_eq_true, beq_iff_eq, reduceCtorEq, or_false,
            collection.injEq]
          constructor
          · exact .inr
          · rintro (rfl | h)
            · exact isCompatible_refl element
            · exact h
      | _ =>
          rw [Bool.eq_iff_iff]
          simp [isCompatible, nonNull, eitherObject, bothNumeric]
  | _ =>
      rw [isCompatible]
      · cases b.nonNull <;> rfl
      all_goals simp

/-! ## Layers -/

/-- Types that are not both collections stand side by side if they are equal, or one
of them is the untyped object, or they are a whole number and a decimal. -/
def Alike (a b : StaticType) : Prop :=
  a = b ∨ a = .object ∨ b = .object ∨ a = .integer ∧ b = .decimal ∨ a = .decimal ∧ b = .integer

/-- The collections that two types both begin with can be taken off. -/
theorem exists_common_layers (a b : StaticType) :
    ∃ (n : Nat) (x y : StaticType), a.bare = collection^[n] x ∧ b.bare = collection^[n] y ∧
      (x.isCollection = false ∨ y.isCollection = false) := by
  induction a generalizing b with
  | nullable inner ih => exact ih b
  | collection element ih =>
      induction b with
      | nullable inner ihInner => exact ihInner
      | collection other =>
          obtain ⟨n, x, y, hx, hy, hlast⟩ := ih other
          refine ⟨n + 1, x, y, ?_, ?_, hlast⟩
          · rw [Function.iterate_succ_apply', bare, hx]
          · rw [Function.iterate_succ_apply', bare, hy]
      | _ => exact ⟨0, _, _, rfl, rfl, .inr rfl⟩
  | _ => exact ⟨0, _, b.bare, rfl, rfl, .inl rfl⟩

private theorem isCompatible_layers (n : Nat) (a b : StaticType) :
    (collection^[n] a).isCompatible (collection^[n] b) = a.isCompatible b := by
  induction n with
  | zero => rfl
  | succ n ih =>
      rw [Function.iterate_succ_apply', Function.iterate_succ_apply', isCompatible]
      exact ih

private theorem bare_layers (n : Nat) (t : StaticType) :
    (collection^[n] t).bare = collection^[n] t.bare := by
  induction n with
  | zero => rfl
  | succ n ih => rw [Function.iterate_succ_apply', Function.iterate_succ_apply', bare, ih]

/-- Types that are not both collections are compatible if they are alike. -/
theorem isCompatible_iff_alike {a b : StaticType} (ha : a.nonNull = a) (hb : b.nonNull = b)
    (h : a.isCollection = false ∨ b.isCollection = false) :
    a.isCompatible b = true ↔ a.Alike b := by
  rcases h with h | h
  · rw [isCompatible_iff h, bothNumeric_iff, ha, hb]
    rfl
  · rw [isCompatible_comm, isCompatible_iff h, bothNumeric_iff, ha, hb, Alike]
    grind

/-- Compatibility is reflexive and symmetric, and it does not change when nullability is
added or taken away on any floor of either type. It holds exactly if, without nullability and
without the collections that both types begin with, what is left is equal, or one of the two
is the untyped object, or they are a whole number and a decimal. Testing each floor for
equality first makes no difference. -/
theorem isCompatible_spine (a b : StaticType) :
    a.isCompatible a = true ∧
    a.isCompatible b = b.isCompatible a ∧
    (∀ a' b', a.SameButNull a' → b.SameButNull b' → a'.isCompatible b' = a.isCompatible b) ∧
    (a.isCompatible b = true ↔
      ∃ (n : Nat) (x y : StaticType), a.bare = collection^[n] x ∧ b.bare = collection^[n] y ∧
        (x.isCollection = false ∨ y.isCollection = false) ∧ x.Alike y) ∧
    a.isCompatible b =
      (a.nonNull == b.nonNull || eitherObject a.nonNull b.nonNull ||
        match a.nonNull, b.nonNull with
        | .collection x, .collection y => x.isCompatible y
        | x, y => bothNumeric x y) := by
  refine ⟨isCompatible_refl a, isCompatible_comm a b, ?_, ?_, isCompatible_equal_first a b⟩
  · intro a' b' ha hb
    rw [← isCompatible_bare a', ← isCompatible_bare a, ha.bare_eq, hb.bare_eq]
  · have hleft : ∀ {n : Nat} {t x : StaticType}, t.bare = collection^[n] x → x.nonNull = x := by
      intro n t x hx
      have hbare : collection^[n] x.bare = collection^[n] x := by
        rw [← bare_layers, ← hx, bare_bare]
      have hinjective : Function.Injective collection := fun _ _ => StaticType.collection.inj
      rw [← hinjective.iterate n hbare, nonNull_bare]
    rw [← isCompatible_bare]
    constructor
    · intro h
      obtain ⟨n, x, y, hx, hy, hlast⟩ := exists_common_layers a b
      rw [hx, hy, isCompatible_layers, isCompatible_iff_alike (hleft hx) (hleft hy) hlast] at h
      exact ⟨n, x, y, hx, hy, hlast, h⟩
    · rintro ⟨n, x, y, hx, hy, hlast, h⟩
      rw [hx, hy, isCompatible_layers, isCompatible_iff_alike (hleft hx) (hleft hy) hlast]
      exact h

end ObjectQuery.StaticType
