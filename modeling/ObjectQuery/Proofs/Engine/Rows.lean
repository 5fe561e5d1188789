import ObjectQuery.Proofs.Engine.Ordering

/-!
# Rows one by one

A filter, an order and a projection look at each scope on its own: whether
one of these steps succeeds, and what it makes of a scope, does not depend on
the other scopes. Only the places of the rows depend on each other. So the
rows of a query, in whatever order, are the rows of those scopes of its joins
that the filters keep, and there are rows exactly if each scope is ready for
all steps that it reaches.

## Main definitions

* `meets` — a condition is true in a scope.
* `Hql.Query.Ready` — all steps that a scope reaches succeed in it.

## Main results

* `keepTrue_eq_ok_iff`, `exists_sortScopes_iff`, `selectRows_eq_ok_iff` — when the
  steps succeed, and what they make.
* `Hql.Query.exists_rowsOf_iff`, `Hql.Query.perm_of_rowsOf` — the same for the steps
  together.
-/

namespace ObjectQuery

open Hql (Node Query)

variable {scopes : List Scope}

/-! ## The steps -/

/-- Whether a condition is true in a scope. -/
def meets (condition : Scope → Outcome Value) (scope : Scope) : Bool :=
  match condition scope with
  | .ok v => v.isTrue
  | .error _ => false

theorem meets_of_eq_ok {condition : Scope → Outcome Value} {scope : Scope} {v : Value}
    (h : condition scope = .ok v) : meets condition scope = v.isTrue := by
  rw [meets, h]

/-- A condition filters scopes if it has a value in all of them. -/
theorem keepTrue_eq_ok_iff {condition : Scope → Outcome Value} {kept : List Scope} :
    keepTrue condition scopes = .ok kept ↔
      (∀ scope ∈ scopes, ∃ v, condition scope = .ok v) ∧
        scopes.filter (meets condition) = kept := by
  induction scopes generalizing kept with
  | nil => simp [keepTrue]
  | cons scope rest ih =>
      rw [keepTrue, List.forall_mem_cons, bind_eq_ok]
      constructor
      · rintro ⟨v, hv, h⟩
        obtain ⟨others, hothers, h⟩ := bind_eq_ok.mp h
        obtain ⟨hrest, rfl⟩ := ih.mp hothers
        refine ⟨⟨⟨v, hv⟩, hrest⟩, ?_⟩
        rw [← Except.ok.inj h, List.filter_cons, meets_of_eq_ok hv]
      · rintro ⟨⟨⟨v, hv⟩, hrest⟩, rfl⟩
        refine ⟨v, hv, ?_⟩
        rw [ih.mpr ⟨hrest, rfl⟩, ok_bind, List.filter_cons, meets_of_eq_ok hv]
        rfl

/-- Scopes are sorted if all have keys. -/
theorem exists_sortScopes_iff {directions : List Direction}
    {keys : Scope → Outcome (List Value)} :
    (∃ sorted, sortScopes directions keys scopes = .ok sorted) ↔
      ∀ scope ∈ scopes, ∃ ks, keys scope = .ok ks := by
  constructor
  · rintro ⟨sorted, hsorted⟩ scope hscope
    obtain ⟨keyed, hkeyed, -⟩ := bind_eq_ok.mp hsorted
    obtain ⟨entry, -, hentry⟩ := exists_right_of_forall₂ (mapM_eq_ok_iff.mp hkeyed) hscope
    obtain ⟨ks, hks, -⟩ := bind_eq_ok.mp hentry
    exact ⟨ks, hks⟩
  · intro h
    have hkeys : ∀ scope ∈ scopes, keys scope = .ok ((keys scope).toOption.getD []) := by
      intro scope hscope
      obtain ⟨ks, hks⟩ := h scope hscope
      rw [hks]
      rfl
    exact ⟨_, sortScopes_eq hkeys⟩

/-- The row that a projection makes of a scope in which it has a value. -/
def rowIn (select : Scope → Outcome Value) (scope : Scope) : Row :=
  ⟨(select scope).toOption.getD .null, scope⟩

/-- Rows are selected if the projection has a value in all scopes. -/
theorem selectRows_eq_ok_iff {select : Scope → Outcome Value} {rows : List Row} :
    selectRows select scopes = .ok rows ↔
      (∀ scope ∈ scopes, ∃ v, select scope = .ok v) ∧ scopes.map (rowIn select) = rows := by
  unfold selectRows
  induction scopes generalizing rows with
  | nil =>
      show Except.ok [] = Except.ok rows ↔ _
      simp
  | cons scope rest ih =>
      rw [List.mapM_cons, List.forall_mem_cons, bind_eq_ok]
      constructor
      · rintro ⟨row, hrow, h⟩
        obtain ⟨v, hv, hrow⟩ := bind_eq_ok.mp hrow
        obtain ⟨others, hothers, h⟩ := bind_eq_ok.mp h
        obtain ⟨hrest, rfl⟩ := ih.mp hothers
        refine ⟨⟨⟨v, hv⟩, hrest⟩, ?_⟩
        rw [← Except.ok.inj h, ← Except.ok.inj hrow, List.map_cons, rowIn, hv]
        rfl
      · rintro ⟨⟨⟨v, hv⟩, hrest⟩, rfl⟩
        refine ⟨⟨v, scope⟩, by rw [hv]; rfl, ?_⟩
        rw [ih.mpr ⟨hrest, rfl⟩, ok_bind, List.map_cons, rowIn, hv]
        rfl

namespace Hql

variable {env : Environment} {outer : Scope}

/-- The value of a filter. One that is absent is true. -/
def filterValue (env : Environment) : Option Node → Scope → Outcome Value
  | none, _ => .ok (.boolean true)
  | some condition, scope => condition.eval env scope

theorem runFilter_eq_keepTrue (filter : Option Node) (scopes : List Scope) :
    runFilter env filter scopes = keepTrue (filterValue env filter) scopes := by
  cases filter with
  | some condition => rfl
  | none =>
      rw [runFilter]
      refine (keepTrue_eq_ok_iff.mpr ⟨fun _ _ => ⟨_, rfl⟩, ?_⟩).symm
      exact List.filter_eq_self.mpr fun _ _ => rfl

/-! ## The steps of a query -/

namespace Query

variable {q : Query}

/-- What a query makes of the scopes that its first filter keeps. -/
def rowsOf (env : Environment) (q : Query) (scopes : List Scope) : Outcome (List Row) := do
  let scopes ← runFilter env q.having scopes
  let scopes ← sortScopes (q.order.map OrderKey.direction) (evalKeys env q.order) scopes
  selectRows (q.project env) scopes

theorem rows_eq_rowsOf (q : Query) (outer : Scope) :
    q.rows env outer =
      (q.source.eval env outer >>= sourceItems) >>= fun items =>
        runJoins env q.joins (items.map fun item => (q.name, item) :: outer) >>= fun scopes =>
          runFilter env q.filter scopes >>= q.rowsOf env :=
  rfl

/-- All steps that a scope reaches succeed in it. -/
structure Ready (env : Environment) (q : Query) (scope : Scope) : Prop where
  having : ∃ v, filterValue env q.having scope = .ok v
  keys : meets (filterValue env q.having) scope = true →
    ∃ ks, evalKeys env q.order scope = .ok ks
  project : meets (filterValue env q.having) scope = true → ∃ v, q.project env scope = .ok v

/-- There are rows exactly if every scope is ready. -/
theorem exists_rowsOf_iff :
    (∃ rows, q.rowsOf env scopes = .ok rows) ↔ ∀ scope ∈ scopes, q.Ready env scope := by
  have hsteps : (∃ rows, q.rowsOf env scopes = .ok rows) ↔
      ∃ kept, runFilter env q.having scopes = .ok kept ∧
        ∃ sorted, sortScopes (q.order.map OrderKey.direction) (evalKeys env q.order) kept =
            .ok sorted ∧
          ∀ scope ∈ kept, ∃ v, q.project env scope = .ok v := by
    simp only [rowsOf, bind_eq_ok, selectRows_eq_ok_iff]
    constructor
    · rintro ⟨rows, kept, hkept, sorted, hsorted, hproject, -⟩
      exact ⟨kept, hkept, sorted, hsorted, fun scope hscope =>
        hproject scope ((sortScopes_perm hsorted).mem_iff.mpr hscope)⟩
    · rintro ⟨kept, hkept, sorted, hsorted, hproject⟩
      exact ⟨_, kept, hkept, sorted, hsorted, fun scope hscope =>
        hproject scope ((sortScopes_perm hsorted).mem_iff.mp hscope), rfl⟩
  rw [hsteps]
  simp only [runFilter_eq_keepTrue, keepTrue_eq_ok_iff, exists_and_right, exists_sortScopes_iff]
  constructor
  · rintro ⟨_, ⟨hhaving, rfl⟩, hkeys, hproject⟩ scope hscope
    exact ⟨hhaving scope hscope,
      fun h => hkeys scope (List.mem_filter.mpr ⟨hscope, h⟩),
      fun h => hproject scope (List.mem_filter.mpr ⟨hscope, h⟩)⟩
  · intro h
    refine ⟨_, ⟨fun scope hscope => (h scope hscope).having, rfl⟩, ?_, ?_⟩
    · intro scope hscope
      obtain ⟨hscope, hmeets⟩ := List.mem_filter.mp hscope
      exact (h scope hscope).keys hmeets
    · intro scope hscope
      obtain ⟨hscope, hmeets⟩ := List.mem_filter.mp hscope
      exact (h scope hscope).project hmeets

/-- The rows are those of the scopes that are kept, in some order. -/
theorem perm_of_rowsOf {rows : List Row} (h : q.rowsOf env scopes = .ok rows) :
    rows.Perm ((scopes.filter (meets (filterValue env q.having))).map
      (rowIn (q.project env))) := by
  unfold rowsOf at h
  obtain ⟨kept, hkept, hrows⟩ := bind_eq_ok.mp h
  obtain ⟨sorted, hsorted, hselected⟩ := bind_eq_ok.mp hrows
  rw [runFilter_eq_keepTrue] at hkept
  obtain ⟨-, rfl⟩ := keepTrue_eq_ok_iff.mp hkept
  obtain ⟨-, rfl⟩ := selectRows_eq_ok_iff.mp hselected
  exact (sortScopes_perm hsorted).map _

/-- Every row is of one of the scopes. -/
theorem scope_mem_of_rowsOf {rows : List Row} (h : q.rowsOf env scopes = .ok rows) {row : Row}
    (hrow : row ∈ rows) : row.scope ∈ scopes := by
  obtain ⟨scope, hscope, rfl⟩ := List.mem_map.mp ((perm_of_rowsOf h).mem_iff.mp hrow)
  exact (List.mem_filter.mp hscope).1

/-! ## Queries that list their rows -/

/-- The query lists all rows that it selects. -/
structure ListsAll (q : Query) : Prop where
  distinct : q.distinct = false
  skip : q.skip = none
  take : q.take = none
  aggregate : q.aggregate = none

theorem ListsAll.run_eq (h : q.ListsAll) (env : Environment) (outer : Scope) :
    q.run env outer =
      q.rows env outer >>= fun rows => .ok (.list (rows.map Row.value)) := by
  have hfinish : ∀ rows, q.finish env outer rows = .ok (.list (rows.map Row.value)) := by
    intro rows
    rw [finish, distinctRows, h.distinct, if_neg Bool.false_ne_true, h.skip, h.take, h.aggregate]
    simp only [evalCount, ok_bind, Option.getD_none, List.drop_zero, List.take_length]
    rfl
  rw [Query.run_eq, rows]
  simp only [hfinish, bind_assoc]

end Query

end Hql

end ObjectQuery
