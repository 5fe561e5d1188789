import ObjectQuery.Method.Registry

/-!
# Registration and look-up

A registration is found under its signature, and everything else is found as
before.

## Main results

* `Registry.lookup_register` — what is found after a registration.
-/

namespace ObjectQuery

/-- Looking a key up behind an entry. -/
theorem lookup_cons_ite {α β : Type} [DecidableEq α] (k key : α) (value : β)
    (rest : List (α × β)) :
    ((key, value) :: rest).lookup k = if k = key then some value else rest.lookup k := by
  by_cases h : k = key
  · rw [if_pos h, h, List.lookup_cons_self]
  · rw [if_neg h, List.lookup_cons, beq_eq_false_iff_ne.mpr h]

/-- An entry that is put in its place is found under its key. -/
theorem lookup_setEntry {α β : Type} [DecidableEq α] (key : α) (value : β)
    (entries : List (α × β)) (k : α) :
    (setEntry key value entries).lookup k = if k = key then some value else entries.lookup k := by
  induction entries with
  | nil => exact lookup_cons_ite k key value []
  | cons entry rest ih =>
      obtain ⟨other, v⟩ := entry
      unfold setEntry
      by_cases hother : other = key
      · rw [if_pos hother, lookup_cons_ite, lookup_cons_ite, hother]
        split <;> rfl
      · rw [if_neg hother, lookup_cons_ite, lookup_cons_ite, ih]
        by_cases hk : k = other
        · rw [if_pos hk, if_pos hk, if_neg (hk ▸ hother)]
        · rw [if_neg hk, if_neg hk]

private theorem Layer.find?_insert (layer : Layer) (method : MethodSignature) (handler : Handler)
    (other : MethodSignature) :
    (layer.insert method handler).find? other =
      if other = method then some handler else layer.find? other :=
  lookup_setEntry method handler layer.entries other

namespace Registry

/-- The innermost layer answers, and for what it does not have its ancestors do. -/
theorem lookup_eq (registry : Registry) (method : MethodSignature) :
    registry.lookup method =
      (registry.own.find? method).or (registry.ancestors.findSome? (·.find? method)) := by
  unfold lookup layers
  rw [List.findSome?_cons]
  cases registry.own.find? method <;> rfl

/-- A registration is found under its signature, and everything else as before. -/
theorem lookup_register (registry : Registry) (method : MethodSignature) (handler : Handler)
    (other : MethodSignature) :
    (registry.register method handler).lookup other =
      if other = method then some handler else registry.lookup other := by
  rw [lookup_eq, lookup_eq, register, Layer.find?_insert]
  by_cases h : other = method
  · rw [if_pos h, if_pos h, Option.some_or]
  · rw [if_neg h, if_neg h]

/-- A registry finds all that its parent does. -/
theorem lookup_childOf (parent : Registry) (method : MethodSignature) :
    parent.childOf.lookup method = parent.lookup method := rfl

end Registry

end ObjectQuery
