import Mathlib.Data.List.Basic
import ObjectQuery.Proofs.Method.Registry

/-!
# Registries as layered maps

A registry is built by calls that register handlers, one layer on top of
another: a layer is complete before a child is made of it. What such a chain
finds for a method can be read off the calls alone. It is the handler that
was registered last in the innermost layer that has one.

Registries that are set up side by side share layers, but no registration
reaches a registry other than the one it is made in. So it does not matter in
which order the registries of a family are set up: each of them is the chain
of the calls made in it and, before it became a child, in its ancestors.

## Main definitions

* `Chain`, `Chain.registry` — the calls of all layers, and the registry that
  they make.
* `latest?` — the handler registered last.
* `Setup`, `setUp` — registries set up side by side.

## Main results

* `lookup_chain` — what a registry finds, whatever else is set up beside it.
-/

namespace ObjectQuery

/-! ## Calls that register handlers -/

/-- A call that registers a handler. -/
inductive Registration where
  /-- Under one signature. -/
  | one (method : MethodSignature) (handler : Handler)
  /-- Under every signature that the handler is meant for. -/
  | all (handler : Handler)

/-- The signatures under which a call registers a handler, with that handler, one
after the other. -/
def Registration.entries : Registration → List (MethodSignature × Handler)
  | .one method handler => [(method, handler)]
  | .all handler => handler.methods.map (·, handler)

/-- The handler that the last of several calls has registered for a method. -/
def latest? (method : MethodSignature) (calls : List Registration) : Option Handler :=
  (calls.flatMap Registration.entries).reverse.lookup method

namespace Registry

/-- The registry after a call. -/
def after (registry : Registry) : Registration → Registry
  | .one method handler => registry.register method handler
  | .all handler => registry.merge handler

end Registry

/-- The calls made in the layers of a registry. -/
structure Chain where
  /-- The calls made in the innermost layer. -/
  own : List Registration
  /-- The calls made in the layers around it, nearest first, each before it became a
  parent. -/
  outer : List (List Registration)

namespace Chain

/-- The registry of a layer and those around it. -/
def build (calls : List Registration) : List (List Registration) → Registry
  | [] => calls.foldl Registry.after .empty
  | parent :: rest => calls.foldl Registry.after (build parent rest).childOf

/-- The registry that the calls make. -/
def registry (chain : Chain) : Registry :=
  build chain.own chain.outer

/-- The chain of a child without calls of its own. -/
def child (chain : Chain) : Chain :=
  ⟨[], chain.own :: chain.outer⟩

/-- The chain with one more call in the innermost layer. -/
def after (chain : Chain) (call : Registration) : Chain :=
  { chain with own := chain.own ++ [call] }

end Chain

/-! ## What a chain finds -/

namespace Registry

/-- The registrations of a handler under several signatures, as one step. -/
theorem lookup_registerAll (registry : Registry) (handler : Handler)
    (methods : List MethodSignature) (method : MethodSignature) :
    (registry.registerAll handler methods).lookup method =
      ((methods.map (·, handler)).reverse.lookup method).or (registry.lookup method) := by
  induction methods generalizing registry with
  | nil => rfl
  | cons first rest ih =>
      have hrest := ih (registry.register first handler)
      rw [lookup_register] at hrest
      rw [List.map_cons, List.reverse_cons, List.lookup_append, Option.or_assoc]
      refine hrest.trans (congrArg _ ?_)
      rw [lookup_cons_ite]
      split <;> rfl

/-- After a call, the last of its entries for a method counts, and what was found before
where there is none. -/
theorem lookup_after (registry : Registry) (call : Registration) (method : MethodSignature) :
    (registry.after call).lookup method =
      (call.entries.reverse.lookup method).or (registry.lookup method) := by
  cases call with
  | one other handler => exact lookup_registerAll registry handler [other] method
  | all handler => exact lookup_registerAll registry handler handler.methods method

/-- After several calls, the last entry of all counts. -/
theorem lookup_foldl_after (registry : Registry) (calls : List Registration)
    (method : MethodSignature) :
    (calls.foldl after registry).lookup method =
      (latest? method calls).or (registry.lookup method) := by
  induction calls generalizing registry with
  | nil => rfl
  | cons call rest ih =>
      rw [List.foldl_cons, ih, lookup_after, latest?, latest?, List.flatMap_cons,
        List.reverse_append, List.lookup_append, Option.or_assoc]

end Registry

namespace Chain

private theorem registry_after (chain : Chain) (call : Registration) :
    (chain.after call).registry = chain.registry.after call := by
  obtain ⟨own, outer⟩ := chain
  cases outer with
  | nil => exact List.foldl_append
  | cons parent rest => exact List.foldl_append

/-- The innermost layer that has a handler for a method answers, with the latest one. -/
theorem lookup_build (calls : List Registration) (outer : List (List Registration))
    (method : MethodSignature) :
    (build calls outer).lookup method = (calls :: outer).findSome? (latest? method) := by
  induction outer generalizing calls with
  | nil =>
      rw [build, Registry.lookup_foldl_after, List.findSome?_cons]
      cases latest? method calls <;> rfl
  | cons parent rest ih =>
      rw [List.findSome?_cons, build, Registry.lookup_foldl_after, Registry.lookup_childOf,
        ih parent]
      cases latest? method calls <;> rfl

end Chain

/-! ## Registries side by side -/

/-- A step in setting up registries. They are known by their places in a list. -/
inductive Setup where
  /-- A registry without a parent. -/
  | new
  /-- A child of a registry, as that is by now. -/
  | childOf (parent : Nat)
  /-- A call in a registry. -/
  | register (target : Nat) (call : Registration)

namespace Setup

/-- The place of the registry in which a step registers something. -/
def target? : Setup → Option Nat
  | .register target _ => some target
  | _ => none

/-- The registries after a step. -/
def apply (registries : List Registry) : Setup → List Registry
  | .new => registries ++ [.empty]
  | .childOf parent => registries ++ (registries[parent]?.map Registry.childOf).toList
  | .register target call => registries.modify target (·.after call)

/-- What is known of the calls in each registry after a step. -/
def record (chains : List Chain) : Setup → List Chain
  | .new => chains ++ [⟨[], []⟩]
  | .childOf parent => chains ++ (chains[parent]?.map Chain.child).toList
  | .register target call => chains.modify target (·.after call)

/-- A step does to the registries what it does to their chains. -/
theorem apply_map_registry (chains : List Chain) (step : Setup) :
    step.apply (chains.map Chain.registry) = (step.record chains).map Chain.registry := by
  cases step with
  | new =>
      rw [apply, record, List.map_append]
      rfl
  | childOf parent =>
      rw [apply, record, List.map_append, List.getElem?_map]
      cases chains[parent]? <;> rfl
  | register target call =>
      apply List.ext_getElem?
      intro place
      rw [apply, record, List.getElem?_modify, List.getElem?_map, List.getElem?_map,
        List.getElem?_modify]
      cases chains[place]? with
      | none => rfl
      | some chain =>
          by_cases h : target = place
          · simp [h, Chain.registry_after]
          · simp [h]

/-- A step leaves every registry as it is in which it does not register anything. -/
theorem getElem?_apply {registries : List Registry} {step : Setup} {place : Nat}
    {registry : Registry} (h : registries[place]? = some registry)
    (htarget : step.target? ≠ some place) : (step.apply registries)[place]? = some registry := by
  have hlt : place < registries.length := (List.getElem?_eq_some_iff.mp h).1
  cases step with
  | new => rw [apply, List.getElem?_append_left hlt, h]
  | childOf parent => rw [apply, List.getElem?_append_left hlt, h]
  | register target call =>
      have hne : target ≠ place := fun heq => htarget (congrArg some heq)
      rw [apply, List.getElem?_modify, h]
      simp [hne]

end Setup

/-- The registries after several steps. -/
def setUp (steps : List Setup) (registries : List Registry) : List Registry :=
  steps.foldl Setup.apply registries

/-- The chains of all registries after several steps. -/
def chainsOf (steps : List Setup) (chains : List Chain) : List Chain :=
  steps.foldl Setup.record chains

private theorem setUp_map_registry (steps : List Setup) (chains : List Chain) :
    setUp steps (chains.map Chain.registry) = (chainsOf steps chains).map Chain.registry := by
  unfold setUp chainsOf
  induction steps generalizing chains with
  | nil => rfl
  | cons step rest ih => rw [List.foldl_cons, List.foldl_cons, Setup.apply_map_registry, ih]

private theorem getElem?_setUp {steps : List Setup} {registries : List Registry} {place : Nat}
    {registry : Registry} (h : registries[place]? = some registry)
    (htarget : ∀ step ∈ steps, step.target? ≠ some place) :
    (setUp steps registries)[place]? = some registry := by
  unfold setUp
  induction steps generalizing registries with
  | nil => exact h
  | cons step rest ih =>
      obtain ⟨hstep, hrest⟩ := List.forall_mem_cons.mp htarget
      exact ih (Setup.getElem?_apply h hstep) hrest

/-- A registry finds the handler that was registered last in the innermost layer that has
one, and none if there is no such layer. However registries are set up side by side, each is
the registry of the calls made in it and in its ancestors before they became parents, and
no step changes a registry but a registration in that registry itself. -/
theorem lookup_chain :
    (∀ (chain : Chain) (method : MethodSignature),
      chain.registry.lookup method = (chain.own :: chain.outer).findSome? (latest? method)) ∧
    (∀ steps : List Setup, setUp steps [] = (chainsOf steps []).map Chain.registry) ∧
    ∀ (steps : List Setup) (registries : List Registry) (place : Nat) (registry : Registry),
      registries[place]? = some registry → (∀ step ∈ steps, step.target? ≠ some place) →
        (setUp steps registries)[place]? = some registry :=
  ⟨fun chain => Chain.lookup_build chain.own chain.outer, fun steps => setUp_map_registry steps [],
    fun _ _ _ _ h htarget => getElem?_setUp h htarget⟩

/-- A method of no arguments on texts. -/
def textMethod (name : String) : MethodSignature := ⟨"String", name, []⟩

/-- A handler that calls a function, for the given methods. -/
def calling (function : String) (methods : List MethodSignature) : Handler :=
  ⟨function, .function function, methods, .never⟩

/-- A registry for two methods and two children of it. In the first child one method is
registered anew, twice, and both by one handler in between. -/
def familySetup : List Setup := [
  .new,
  .register 0 (.all (calling "trim" [textMethod "Trim", textMethod "Strip"])),
  .childOf 0,
  .childOf 0,
  .register 1 (.one (textMethod "Trim") (calling "ltrim" [])),
  .register 1 (.all (calling "rtrim" [textMethod "Trim", textMethod "Strip", textMethod "Trim"])),
  .register 1 (.one (textMethod "Trim") (calling "btrim" []))]

/-- The first child finds its own handlers. Its parent and its sibling still find those of the
parent, and nothing for a method that is registered nowhere. -/
theorem familySetup_lookup :
    (setUp familySetup []).map (fun registry =>
      (registry.lookup (textMethod "Trim")).map Handler.name) =
        [some "trim", some "btrim", some "trim"] ∧
      (setUp familySetup []).map (fun registry =>
        (registry.lookup (textMethod "Strip")).map Handler.name) =
          [some "trim", some "rtrim", some "trim"] ∧
      (setUp familySetup [])[2]? = (setUp (familySetup.take 4) [])[2]? ∧
      (setUp familySetup []).map (fun registry =>
        (registry.lookup (textMethod "Abs")).map Handler.name) = [none, none, none] := by
  obtain ⟨hlookup, hchains, hkeeps⟩ := lookup_chain
  have hsibling := hkeeps (familySetup.drop 4) (setUp (familySetup.take 4) []) 2 _ rfl (by decide)
  rw [hchains familySetup]
  refine ⟨?_, ?_, ?_, ?_⟩
  · simp only [List.map_map, Function.comp_def, hlookup]
    rfl
  · simp only [List.map_map, Function.comp_def, hlookup]
    rfl
  · rw [← hchains familySetup]
    exact hsibling
  · simp only [List.map_map, Function.comp_def, hlookup]
    rfl

end ObjectQuery
