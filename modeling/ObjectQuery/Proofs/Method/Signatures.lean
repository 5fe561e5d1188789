import Mathlib.Data.List.Nodup
import ObjectQuery.Proofs.Method.Layering

/-!
# The signatures that resolve

A registry can list the signatures that it resolves. Each layer lists its own
and then those of the layers around it that it does not have itself. So a
signature that several layers have is listed once, by the innermost of them,
and nothing is left out.

A registration adds its signature to the list if it is new, and a child lists
what its parent does. What is listed in the end is what some call has
registered, in whatever layer.

## Main results

* `Registry.mem_signatures_after` — what a call adds.
* `signatures_agree` — the list holds what resolves, once.
-/

namespace ObjectQuery

/-! ## Layers -/

/-- A layer has a handler for the signatures that it lists. -/
theorem Layer.mem_methods_iff (layer : Layer) (method : MethodSignature) :
    method ∈ layer.methods ↔ (layer.find? method).isSome = true := by
  unfold methods find?
  rw [List.lookup_isSome_iff, List.mem_map]
  constructor
  · rintro ⟨entry, hentry, rfl⟩
    exact ⟨entry, hentry, beq_self_eq_true _⟩
  · rintro ⟨entry, hentry, heq⟩
    exact ⟨entry, hentry, (eq_of_beq heq).symm⟩

namespace Registry

/-- A signature of an outer layer is left out exactly where an inner layer lists it. -/
theorem mem_signaturesOf_cons (layer : Layer) (rest : List Layer) (method : MethodSignature) :
    method ∈ signaturesOf (layer :: rest) ↔
      method ∈ layer.methods ∨ method ∉ layer.methods ∧ method ∈ signaturesOf rest := by
  rw [signaturesOf, List.mem_append, List.mem_filter, Option.isNone_iff_eq_none,
    layer.mem_methods_iff, Option.not_isSome_iff_eq_none, and_comm (a := _ ∈ _)]

/-- The layers list what one of them has a handler for. -/
theorem mem_signaturesOf_iff (layers : List Layer) (method : MethodSignature) :
    method ∈ signaturesOf layers ↔ (layers.findSome? (·.find? method)).isSome = true := by
  induction layers with
  | nil => simp [signaturesOf]
  | cons layer rest ih =>
      rw [mem_signaturesOf_cons, ih, layer.mem_methods_iff, List.findSome?_cons]
      cases layer.find? method <;> simp

private theorem nodup_signaturesOf (layers : List Layer) : (signaturesOf layers).Nodup := by
  induction layers with
  | nil => exact List.nodup_nil
  | cons layer rest ih =>
      rw [signaturesOf, List.nodup_append]
      refine ⟨layer.nodup_keys, ih.filter _, ?_⟩
      rintro method hown other hother rfl
      -- what is taken from the layers around has no handler in this one
      have hnone := (List.mem_filter.mp hother).2
      rw [layer.mem_methods_iff, Option.isSome_iff_ne_none] at hown
      exact hown (Option.isNone_iff_eq_none.mp hnone)

/-! ## Registries -/

variable (registry : Registry)

/-- A registry lists what it resolves. -/
theorem mem_signatures_iff (method : MethodSignature) :
    method ∈ registry.signatures ↔ (registry.lookup method).isSome = true :=
  mem_signaturesOf_iff registry.layers method

/-- A registry lists no signature twice. -/
theorem nodup_signatures : registry.signatures.Nodup :=
  nodup_signaturesOf registry.layers

/-- A call adds the signatures under which it registers something. -/
theorem mem_signatures_after (call : Registration) (method : MethodSignature) :
    method ∈ (registry.after call).signatures ↔
      method ∈ call.entries.map Prod.fst ∨ method ∈ registry.signatures := by
  rw [mem_signatures_iff, mem_signatures_iff, lookup_after, Option.isSome_or, Bool.or_eq_true,
    List.lookup_isSome_iff, List.mem_map]
  refine or_congr_left (exists_congr fun entry => ?_)
  rw [List.mem_reverse, beq_iff_eq, eq_comm]

/-- Several calls add the signatures of each of them. -/
theorem mem_signatures_foldl_after (calls : List Registration) (method : MethodSignature) :
    method ∈ (calls.foldl after registry).signatures ↔
      (∃ call ∈ calls, method ∈ call.entries.map Prod.fst) ∨ method ∈ registry.signatures := by
  induction calls generalizing registry with
  | nil => simp
  | cons call rest ih =>
      rw [List.foldl_cons, ih, mem_signatures_after, List.exists_mem_cons_iff, or_left_comm,
        or_assoc]

/-- A child lists what its parent does. -/
theorem signatures_childOf (parent : Registry) : parent.childOf.signatures = parent.signatures := by
  have hall : (signaturesOf parent.layers).filter
      (fun method => (Layer.empty.find? method).isNone) = signaturesOf parent.layers :=
    List.filter_eq_self.mpr fun _ _ => rfl
  exact hall

end Registry

/-- The registry of a chain lists what a call in one of its layers has registered. -/
theorem Chain.mem_signatures_build (calls : List Registration)
    (outer : List (List Registration)) (method : MethodSignature) :
    method ∈ (build calls outer).signatures ↔
      ∃ made ∈ calls :: outer, ∃ call ∈ made, method ∈ call.entries.map Prod.fst := by
  induction outer generalizing calls with
  | nil =>
      rw [build, Registry.mem_signatures_foldl_after]
      simp [Registry.empty, Registry.signatures, Registry.layers, Registry.signaturesOf,
        Layer.empty, Layer.methods]
  | cons parent rest ih =>
      rw [build, Registry.mem_signatures_foldl_after, Registry.signatures_childOf, ih]
      exact (List.exists_mem_cons_iff
        (fun made => ∃ call ∈ made, method ∈ call.entries.map Prod.fst) calls (parent :: rest)).symm

/-- A registry lists no signature twice, and it lists exactly those that it resolves. A
registry that is built by calls, layer on layer, lists exactly those that one of the calls
registers. -/
theorem signatures_agree :
    (∀ registry : Registry, registry.signatures.Nodup ∧
      ∀ method, method ∈ registry.signatures ↔ (registry.lookup method).isSome = true) ∧
    ∀ (chain : Chain) (method : MethodSignature),
      method ∈ chain.registry.signatures ↔
        ∃ calls ∈ chain.own :: chain.outer, ∃ call ∈ calls,
          method ∈ call.entries.map Prod.fst :=
  ⟨fun registry => ⟨registry.nodup_signatures, registry.mem_signatures_iff⟩,
    fun chain => Chain.mem_signatures_build chain.own chain.outer⟩

end ObjectQuery
