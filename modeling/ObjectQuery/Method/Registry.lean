import ObjectQuery.Method.Handler

/-!
# Registries of handlers

A registry finds the handler of a method by its signature. Registries are
layered: one may be made the child of another and then answers for what is
registered in it, and in all else as its parent does. Within a layer the
last registration for a signature counts. A registration changes the
innermost layer only, so whatever shares the layers below is not affected.

Each layer holds a signature at most once, which is part of its type.

## Main definitions

* `Registry.lookup` — the handler of a method.
* `Registry.register`, `Registry.merge` — registration under one signature,
  or under all that a handler is meant for.
* `Registry.signatures` — all signatures that resolve.
-/

namespace ObjectQuery

/-! ## Layers -/

/-- Puts an entry in the place of one with the same key, or at the end. -/
def setEntry {α β : Type} [DecidableEq α] (key : α) (value : β) : List (α × β) → List (α × β)
  | [] => [(key, value)]
  | (k, v) :: rest => if k = key then (key, value) :: rest else (k, v) :: setEntry key value rest

private theorem mem_keys_setEntry {α β : Type} [DecidableEq α] {key : α} {value : β}
    {entries : List (α × β)} {k : α} :
    k ∈ (setEntry key value entries).map Prod.fst ↔ k = key ∨ k ∈ entries.map Prod.fst := by
  induction entries with
  | nil => simp [setEntry]
  | cons entry rest ih =>
    obtain ⟨k', v'⟩ := entry
    simp only [setEntry]
    split
    · next h => simp [h]
    · simp only [List.map_cons, List.mem_cons, ih]
      constructor
      · rintro (h | h | h) <;> simp [h]
      · rintro (h | h | h) <;> simp [h]

private theorem nodup_keys_setEntry {α β : Type} [DecidableEq α] {key : α} {value : β}
    {entries : List (α × β)} (h : (entries.map Prod.fst).Nodup) :
    ((setEntry key value entries).map Prod.fst).Nodup := by
  induction entries with
  | nil => simp [setEntry]
  | cons entry rest ih =>
    obtain ⟨k', v'⟩ := entry
    simp only [List.map_cons, List.nodup_cons] at h
    simp only [setEntry]
    split
    · next hk =>
      subst hk
      simpa using h
    · next hk =>
      simp only [List.map_cons, List.nodup_cons, mem_keys_setEntry, not_or]
      exact ⟨⟨hk, h.1⟩, ih h.2⟩

/-- The registrations made in one registry. -/
structure Layer where
  entries : List (MethodSignature × Handler)
  /-- Each signature is registered once. -/
  nodup_keys : (entries.map Prod.fst).Nodup

namespace Layer

/-- The layer without registrations. -/
def empty : Layer := ⟨[], List.nodup_nil⟩

/-- The handler registered for a signature in this layer. -/
def find? (layer : Layer) (method : MethodSignature) : Option Handler :=
  layer.entries.lookup method

/-- The layer with one more registration. -/
def insert (layer : Layer) (method : MethodSignature) (handler : Handler) : Layer :=
  ⟨setEntry method handler layer.entries, nodup_keys_setEntry layer.nodup_keys⟩

/-- The signatures registered in this layer. -/
def methods (layer : Layer) : List MethodSignature :=
  layer.entries.map Prod.fst

end Layer

/-! ## Registries -/

/-- A registry: its own layer and those of its ancestors, nearest first. -/
structure Registry where
  own : Layer
  ancestors : List Layer

/-- A handler put in the place of another one. -/
structure Replacement where
  method : MethodSignature
  previous : Handler
  current : Handler

namespace Registry

/-- A registry without registrations and without a parent. -/
def empty : Registry := ⟨.empty, []⟩

/-- A registry without registrations of its own. -/
def childOf (parent : Registry) : Registry :=
  ⟨.empty, parent.own :: parent.ancestors⟩

/-- All layers, innermost first. -/
def layers (registry : Registry) : List Layer :=
  registry.own :: registry.ancestors

/-- The handler of a method: that of the innermost layer that has one. -/
def lookup (registry : Registry) (method : MethodSignature) : Option Handler :=
  registry.layers.findSome? (·.find? method)

/-- Registers a handler for a signature. -/
def register (registry : Registry) (method : MethodSignature) (handler : Handler) : Registry :=
  { registry with own := registry.own.insert method handler }

/-- Registers a handler for each of several signatures. -/
def registerAll (registry : Registry) (handler : Handler) (methods : List MethodSignature) :
    Registry :=
  methods.foldl (fun registry method => registry.register method handler) registry

/-- Registers a handler for every signature it is meant for. -/
def merge (registry : Registry) (handler : Handler) : Registry :=
  registry.registerAll handler handler.methods

/-- The registration that registering a handler replaces, if any. -/
def replacement? (registry : Registry) (method : MethodSignature) (handler : Handler) :
    Option Replacement :=
  (registry.own.find? method).map (⟨method, ·, handler⟩)

/-- The registrations that registering a handler for each of several
signatures replaces, in order. -/
def replacements (registry : Registry) (handler : Handler) :
    List MethodSignature → List Replacement
  | [] => []
  | method :: rest =>
    (registry.replacement? method handler).toList ++
      (registry.register method handler).replacements handler rest

/-- All signatures that resolve in one of several layers. -/
def signaturesOf : List Layer → List MethodSignature
  | [] => []
  | layer :: rest =>
    layer.methods ++ (signaturesOf rest).filter fun method => (layer.find? method).isNone

/-- All signatures that resolve. -/
def signatures (registry : Registry) : List MethodSignature :=
  signaturesOf registry.layers

end Registry

end ObjectQuery
