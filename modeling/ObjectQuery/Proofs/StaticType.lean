import ObjectQuery.StaticType

/-!
# Laws of static types

Nullability does not take part in any question that types are asked: whether
a type is a collection or a row, and whether two types may stand side by
side. A collection beside something that is none is only accepted where the
other side is the untyped object.
-/

namespace ObjectQuery.StaticType

-- `grind` computes with types constructor by constructor
attribute [grind =] nonNull isCollection isCompatible bothNumeric

theorem nonNull_nonNull (t : StaticType) : t.nonNull.nonNull = t.nonNull := by
  induction t with
  | nullable inner ih => exact ih
  | _ => rfl

@[simp] theorem isCollection_nonNull (t : StaticType) :
    t.nonNull.isCollection = t.isCollection := by
  simp only [isCollection, nonNull_nonNull]

@[simp] theorem isEntity_nonNull (t : StaticType) : t.nonNull.isEntity = t.isEntity := by
  simp only [isEntity, nonNull_nonNull]

theorem isCollection_iff {t : StaticType} :
    t.isCollection = true ↔ ∃ element, t.nonNull = .collection element := by
  unfold isCollection
  split
  · next element h => simp [h]
  · next h =>
      simp only [Bool.false_eq_true, false_iff, not_exists]
      exact h

/-! ## Compatibility -/

theorem isCompatible_nonNull_left (a b : StaticType) :
    a.nonNull.isCompatible b = a.isCompatible b := by
  induction a with
  | nullable inner ih => rw [nonNull, ih, isCompatible]
  | _ => rfl

theorem isCompatible_nonNull_right (a b : StaticType) :
    a.isCompatible b.nonNull = a.isCompatible b := by
  induction a with
  | nullable inner ih => rw [isCompatible, isCompatible, ih]
  | _ => simp only [isCompatible, nonNull_nonNull]

theorem isCompatible_congr {a a' b b' : StaticType} (ha : a.nonNull = a'.nonNull)
    (hb : b.nonNull = b'.nonNull) : a.isCompatible b = a'.isCompatible b' := by
  calc a.isCompatible b
      _ = a.nonNull.isCompatible b.nonNull := by
        rw [isCompatible_nonNull_left, isCompatible_nonNull_right]
      _ = a'.nonNull.isCompatible b'.nonNull := by rw [ha, hb]
      _ = a'.isCompatible b' := by
        rw [isCompatible_nonNull_left, isCompatible_nonNull_right]

theorem isCompatible_refl (t : StaticType) : t.isCompatible t = true := by
  induction t with
  | nullable inner ih =>
      rw [isCompatible, ← isCompatible_nonNull_right, nonNull, isCompatible_nonNull_right, ih]
  | collection element ih => simpa only [isCompatible, nonNull] using ih
  | _ => simp [isCompatible, nonNull]

theorem isCompatible_object_right (t : StaticType) : t.isCompatible .object = true := by
  induction t with
  | nullable inner ih => rw [isCompatible, ih]
  | _ => simp [isCompatible, nonNull, eitherObject]

theorem isCompatible_object_left (t : StaticType) : StaticType.object.isCompatible t = true := by
  simp [isCompatible, eitherObject]

theorem isCompatible_comm (a b : StaticType) : a.isCompatible b = b.isCompatible a := by
  have hnullable : ∀ a b : StaticType, a.isCompatible (.nullable b) = a.isCompatible b := by
    intro a b
    rw [← isCompatible_nonNull_right, nonNull, isCompatible_nonNull_right]
  induction a generalizing b with
  | nullable inner ih => rw [isCompatible, hnullable, ih]
  | collection element ih =>
      induction b with
      | nullable inner ihInner => rw [hnullable, isCompatible, ihInner]
      | collection other => simpa only [isCompatible, nonNull] using ih other
      | _ =>
          refine Bool.eq_iff_iff.mpr ?_
          simp [isCompatible, nonNull, eitherObject, bothNumeric]
  | _ =>
      induction b with
      | nullable inner ihInner => rw [hnullable, isCompatible, ihInner]
      | _ =>
          refine Bool.eq_iff_iff.mpr ?_
          simp [isCompatible, nonNull, eitherObject, bothNumeric, @eq_comm String]

theorem bothNumeric_iff {a b : StaticType} :
    bothNumeric a b = true ↔ a = .integer ∧ b = .decimal ∨ a = .decimal ∧ b = .integer := by
  unfold bothNumeric
  split <;> simp_all

/-- What fits beside a type that is no collection. -/
theorem isCompatible_iff {a b : StaticType} (ha : a.isCollection = false) :
    a.isCompatible b = true ↔
      a.nonNull = b.nonNull ∨ a.nonNull = .object ∨ b.nonNull = .object ∨
        bothNumeric a.nonNull b.nonNull = true := by
  induction a with
  | nullable inner ih =>
      rw [← isCollection_nonNull, nonNull, isCollection_nonNull] at ha
      exact ih ha
  | collection element => simp [isCollection, nonNull] at ha
  | _ => simp [isCompatible, nonNull, eitherObject, or_assoc]

/-- What stands beside a collection and is none is untyped. -/
theorem nonNull_eq_object_of_collection_left {a b : StaticType} (ha : a.isCollection = true)
    (hb : b.isCollection = false) (h : a.isCompatible b = true) : b.nonNull = .object := by
  obtain ⟨element, helement⟩ := isCollection_iff.mp ha
  rw [← isCompatible_nonNull_left, helement] at h
  unfold isCompatible at h
  split at h
  · next other hother =>
      rw [isCollection_iff.mpr ⟨other, hother⟩] at hb
      cases hb
  · exact eq_of_beq h

/-- What a collection stands beside and is none is untyped. -/
theorem nonNull_eq_object_of_collection_right {a b : StaticType}
    (ha : a.isCollection = false) (hb : b.isCollection = true)
    (h : a.isCompatible b = true) : a.nonNull = .object := by
  obtain ⟨element, helement⟩ := isCollection_iff.mp hb
  induction a with
  | nullable inner ih =>
      rw [isCompatible] at h
      rw [← isCollection_nonNull, nonNull, isCollection_nonNull] at ha
      exact ih ha h
  | object => rfl
  | collection other => simp [isCollection, nonNull] at ha
  | _ =>
      rw [← isCompatible_nonNull_right, helement] at h
      simp [isCompatible, nonNull, eitherObject, bothNumeric] at h

/-! ## Types that say less -/

/-- The second type says no more than the first one: it is the same, or, where
`lax` allows it, the untyped object has taken the place of what is neither a
row nor a collection. -/
inductive Loosens (lax : Bool) : StaticType → StaticType → Prop
  | refl (t) : Loosens lax t t
  | object {t} : lax = true → t.isRowOrCollection = false → Loosens lax t .object
  | collection {a b} : Loosens lax a b → Loosens lax (.collection a) (.collection b)

@[simp] theorem isRowOrCollection_nonNull (t : StaticType) :
    t.nonNull.isRowOrCollection = t.isRowOrCollection := by
  unfold isRowOrCollection
  rw [isCollection_nonNull, isEntity_nonNull]

namespace Loosens

variable {lax : Bool} {a a' b b' c : StaticType}

theorem isRowOrCollection_eq (h : Loosens lax a b) :
    b.isRowOrCollection = a.isRowOrCollection := by
  cases h with
  | refl => rfl
  | object _ hscalar =>
      rw [hscalar]
      rfl
  | collection => rfl

theorem trans (hab : Loosens lax a b) (hbc : Loosens lax b c) : Loosens lax a c := by
  induction hab generalizing c with
  | refl => exact hbc
  | object hlax hscalar =>
      cases hbc with
      | refl => exact .object hlax hscalar
      | object => exact .object hlax hscalar
  | collection _ ih =>
      cases hbc with
      | refl => exact .collection (ih (.refl _))
      | object _ hscalar => cases hscalar
      | collection hbc => exact .collection (ih hbc)

theorem nonNull (h : Loosens lax a b) : Loosens lax a.nonNull b.nonNull := by
  cases h with
  | refl => exact .refl _
  | object hlax hscalar => exact .object hlax (by rw [isRowOrCollection_nonNull, hscalar])
  | collection h => exact .collection h

/-- What stands beside a type also stands beside one that says less. -/
theorem isCompatible_right (h : Loosens lax b b') (hcompatible : a.isCompatible b = true) :
    a.isCompatible b' = true := by
  induction h generalizing a with
  | refl => exact hcompatible
  | object => exact isCompatible_object_right a
  | @collection x x' _ ih =>
      induction a with
      | nullable inner ihInner =>
          rw [StaticType.isCompatible] at hcompatible ⊢
          exact ihInner hcompatible
      | collection y =>
          rw [StaticType.isCompatible] at hcompatible ⊢
          exact ih hcompatible
      | object => exact isCompatible_object_left _
      | _ =>
          simp [StaticType.isCompatible, StaticType.nonNull, eitherObject, bothNumeric]
            at hcompatible

theorem isCompatible_left (h : Loosens lax a a') (hcompatible : a.isCompatible b = true) :
    a'.isCompatible b = true := by
  induction h generalizing b with
  | refl => exact hcompatible
  | object => exact isCompatible_object_left b
  | collection _ ih =>
      unfold StaticType.isCompatible at hcompatible ⊢
      split at hcompatible
      · exact ih hcompatible
      · exact hcompatible

theorem isCompatible (ha : Loosens lax a a') (hb : Loosens lax b b')
    (h : a.isCompatible b = true) : a'.isCompatible b' = true :=
  ha.isCompatible_left (hb.isCompatible_right h)

end Loosens

/-! ## Types that fit wherever others do -/

/-- The second type stands beside every type that the first one stands beside.
This is weaker than equality and no relation of compatibility, which is not
transitive: whole numbers are compatible with the untyped object, and that with
anything. -/
def ReplaceableBy (a b : StaticType) : Prop :=
  ∀ t, a.isCompatible t = true → b.isCompatible t = true

namespace ReplaceableBy

variable {a a' b b' c : StaticType}

theorem refl (a : StaticType) : a.ReplaceableBy a := fun _ h => h

/-- Nullability does not matter. -/
theorem congr (h : a.ReplaceableBy b) (ha : a.nonNull = a'.nonNull) (hb : b.nonNull = b'.nonNull) :
    a'.ReplaceableBy b' := by
  intro t ht
  rw [← isCompatible_congr ha (rfl : t.nonNull = t.nonNull)] at ht
  rw [← isCompatible_congr hb (rfl : t.nonNull = t.nonNull)]
  exact h t ht

theorem nonNull (h : a.ReplaceableBy b) : a.nonNull.ReplaceableBy b.nonNull :=
  h.congr (nonNull_nonNull a).symm (nonNull_nonNull b).symm

theorem collection (h : a.ReplaceableBy b) :
    (StaticType.collection a).ReplaceableBy (.collection b) := by
  intro t ht
  unfold StaticType.isCompatible at ht ⊢
  split at ht
  · next element _ => exact h element ht
  · exact ht

/-- Types that stand side by side may both be replaced. -/
theorem isCompatible (ha : a.ReplaceableBy a') (hb : b.ReplaceableBy b')
    (h : a.isCompatible b = true) : a'.isCompatible b' = true := by
  have hleft : b.isCompatible a' = true := by
    rw [isCompatible_comm]
    exact ha b h
  rw [isCompatible_comm]
  exact hb a' hleft

end ReplaceableBy

/-- A type that is no collection can take the place of another one exactly if
it is untyped, or the other one is not and stands beside it. -/
theorem replaceableBy_iff {a b : StaticType} (hb : b.isCollection = false) :
    a.ReplaceableBy b ↔
      b.nonNull = .object ∨ a.nonNull ≠ .object ∧ a.isCompatible b = true := by
  constructor
  · intro h
    by_cases hobject : b.nonNull = .object
    · exact .inl hobject
    · refine .inr ⟨?_, ?_⟩
      · -- the untyped object stands beside a collection, and `b` does not
        intro huntyped
        have hbeside : a.isCompatible (.collection .object) = true := by
          rw [← isCompatible_nonNull_left, huntyped]
          exact isCompatible_object_left _
        exact hobject (nonNull_eq_object_of_collection_right hb rfl (h _ hbeside))
      · rw [isCompatible_comm]
        exact h a (isCompatible_refl a)
  · intro h t ht
    rw [isCompatible_iff hb]
    rcases h with hobject | ⟨huntyped, hfits⟩
    · exact .inr (.inl hobject)
    · by_cases ha : a.isCollection = true
      · exact .inr (.inl (nonNull_eq_object_of_collection_left ha hb hfits))
      · rw [isCompatible_iff (Bool.eq_false_iff.mpr ha), bothNumeric_iff] at ht hfits
        rw [bothNumeric_iff]
        grind

end ObjectQuery.StaticType
