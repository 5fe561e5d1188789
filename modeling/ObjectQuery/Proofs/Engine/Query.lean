import ObjectQuery.Engine.Run
import ObjectQuery.Proofs.Success

/-!
# The parts of a query run

A query run has three parts. The source gives items; the clauses make rows
of the items; the ending drops repeated rows, pages and reduces. Only the
first part looks at the source, and only the last one at the result
operators, so a statement about either leaves the rest alone.

## Main results

* `Query.run_eq` — a run is the three parts one after the other.
* `distinctBy_idem` — dropping repeated values twice is dropping them once.
-/

namespace ObjectQuery.Hql

variable {env : Environment}

-- the equations of evaluation are long to make, so they are made once, before all that use them
attribute [grind =] Node.eval

/-- Without an ordering the scopes stay as they are. -/
theorem sortScopes_nil (scopes : List Scope) :
    sortScopes ([].map OrderKey.direction) (evalKeys env []) scopes = .ok scopes := by
  have hkeyed : (scopes.mapM fun scope => do return (← evalKeys env [] scope, scope)) =
      (Except.ok (scopes.map fun scope => ([], scope)) :
        Outcome (List (List Value × Scope))) := by
    simp only [evalKeys, ok_bind]
    exact List.mapM_pure
  have hsorted : (scopes.map fun scope => (([] : List Value), scope)).mergeSort
      (fun a b => Value.compareKeys [] a.1 b.1 != .gt) =
        scopes.map fun scope => ([], scope) := by
    apply List.mergeSort_of_pairwise
    rw [List.pairwise_iff_forall_sublist]
    intro a b _
    rfl
  rw [sortScopes, hkeyed, ok_bind, List.map_nil, hsorted]
  show Except.ok ((scopes.map fun scope => (([], scope) : List Value × Scope)).map (·.2)) = _
  rw [List.map_map]
  exact congrArg Except.ok (List.map_id scopes)

/-- The rows that the clauses of a query make of the items of its source. -/
def Query.selected (env : Environment) (q : Query) (outer : Scope) (items : List Value) :
    Outcome (List Row) := do
  let scopes ← runJoins env q.joins (items.map fun item => (q.name, item) :: outer)
  let scopes ← runFilter env q.filter scopes
  let scopes ← runFilter env q.having scopes
  let scopes ← sortScopes (q.order.map OrderKey.direction) (evalKeys env q.order) scopes
  selectRows
    (fun scope =>
      match q.select with
      | some node => node.eval env scope
      | none => scope.item q.name)
    scopes

/-- The rows of a query without those that repeat a value, if it drops
them. -/
def Query.distinctRows (q : Query) (rows : List Row) : List Row :=
  if q.distinct then Value.distinctBy Row.value [] rows else rows

/-- What a query makes of its selected rows. -/
def Query.finish (env : Environment) (q : Query) (outer : Scope) (rows : List Row) :
    Outcome Value := do
  let rows := q.distinctRows rows
  let skipped ← evalCount env q.skip outer
  let rows := rows.drop (skipped.getD 0)
  let taken ← evalCount env q.take outer
  let rows := rows.take (taken.getD rows.length)
  runAggregate env q.aggregate rows outer

/-- A run is made of the source, the clauses and the ending. -/
theorem Query.run_eq (q : Query) (outer : Scope) :
    q.run env outer =
      (q.source.eval env outer >>= sourceItems) >>= fun items =>
        q.selected env outer items >>= fun rows => q.finish env outer rows := by
  obtain ⟨source, name, joins, filter, having, order, select, distinct, skip, take,
    aggregate⟩ := q
  unfold Query.run
  unfold Query.selected Query.finish Query.distinctRows
  cases select with
  | none => simp only [bind_assoc]
  | some node => simp only [bind_assoc]

end ObjectQuery.Hql

namespace ObjectQuery.Value

/-- An average is null or a decimal. -/
theorem average_eq_ok {values : List Value} {v : Value} (h : average values = .ok v) :
    v = .null ∨ ∃ x, v = .decimal x := by
  obtain ⟨total, -, h⟩ := bind_eq_ok.mp h
  cases hnumber : total.number? with
  | none =>
      rw [hnumber] at h
      exact .inl (Except.ok.inj h).symm
  | some x =>
      rw [hnumber] at h
      exact .inr ⟨_, (Except.ok.inj h).symm⟩

variable {α : Type} {value : α → Value}

/-- Where no value repeats one to its left or a value seen before, nothing
is dropped. -/
theorem distinctBy_eq_self {seen : List Value} {entries : List α}
    (h : entries.Pairwise fun a b => (value a).same (value b) = false)
    (hseen : ∀ entry ∈ entries, ∀ v ∈ seen, v.same (value entry) = false) :
    distinctBy value seen entries = entries := by
  induction entries generalizing seen with
  | nil => rfl
  | cons entry rest ih =>
      obtain ⟨hhead, htail⟩ := List.pairwise_cons.mp h
      have hfresh : seen.any (·.same (value entry)) = false := by
        rw [List.any_eq_false]
        intro v hv
        simp [hseen entry (by simp) v hv]
      rw [distinctBy, hfresh, if_neg Bool.false_ne_true]
      congr 1
      apply ih htail
      intro other hother v hv
      rcases List.mem_append.mp hv with hv | hv
      · exact hseen other (by simp [hother]) v hv
      · rw [List.mem_singleton.mp hv]
        exact hhead other hother

/-- What is kept differs from everything seen before. -/
theorem same_of_mem_distinctBy {seen : List Value} {entries : List α} {entry : α}
    (h : entry ∈ distinctBy value seen entries) {v : Value} (hv : v ∈ seen) :
    v.same (value entry) = false := by
  induction entries generalizing seen with
  | nil => simp [distinctBy] at h
  | cons first rest ih =>
      rw [distinctBy] at h
      split at h
      · exact ih h hv
      · next hfresh =>
          rcases List.mem_cons.mp h with rfl | h
          · have hnone := List.any_eq_false.mp (Bool.eq_false_iff.mpr hfresh)
            simpa using hnone v hv
          · exact ih h (List.mem_append_left _ hv)

/-- What is kept repeats nothing. -/
theorem pairwise_distinctBy (seen : List Value) (entries : List α) :
    (distinctBy value seen entries).Pairwise fun a b => (value a).same (value b) = false := by
  induction entries generalizing seen with
  | nil => exact List.Pairwise.nil
  | cons first rest ih =>
      rw [distinctBy]
      split
      · exact ih seen
      · refine List.pairwise_cons.mpr ⟨?_, ih _⟩
        intro entry hentry
        exact same_of_mem_distinctBy hentry (by simp)

/-- What is kept stays in its order. -/
theorem distinctBy_sublist (value : α → Value) (seen : List Value) (entries : List α) :
    (distinctBy value seen entries).Sublist entries := by
  induction entries generalizing seen with
  | nil => exact .slnil
  | cons first rest ih =>
      rw [distinctBy]
      split
      · exact (ih seen).cons first
      · exact (ih _).cons_cons first

/-- What is dropped repeats a value seen before or one that is kept. -/
theorem mem_distinctBy_or_same {seen : List Value} {entries : List α} {entry : α}
    (h : entry ∈ entries) :
    entry ∈ distinctBy value seen entries ∨
      ∃ v ∈ seen ++ (distinctBy value seen entries).map value, v.same (value entry) = true := by
  induction entries generalizing seen with
  | nil => cases h
  | cons first rest ih =>
      rw [distinctBy]
      cases hrepeats : seen.any (·.same (value first)) with
      | true =>
          rw [if_pos rfl]
          rcases List.mem_cons.mp h with rfl | h
          · obtain ⟨v, hv, hsame⟩ := List.any_eq_true.mp hrepeats
            exact .inr ⟨v, List.mem_append_left _ hv, hsame⟩
          · exact ih h
      | false =>
          rw [if_neg Bool.false_ne_true]
          rcases List.mem_cons.mp h with rfl | h
          · exact .inl List.mem_cons_self
          · refine (ih h).imp (List.mem_cons_of_mem first) fun hsame => ?_
            rwa [List.append_assoc, List.singleton_append, ← List.map_cons] at hsame

/-- Every entry is kept, or it repeats the value of one that is kept. -/
theorem mem_distinctBy_or_exists_same (value : α → Value) {entries : List α} {entry : α}
    (h : entry ∈ entries) :
    entry ∈ distinctBy value [] entries ∨
      ∃ kept ∈ distinctBy value [] entries, (value kept).same (value entry) = true := by
  refine (mem_distinctBy_or_same h).imp_right fun hsame => ?_
  obtain ⟨v, hv, hsame⟩ := hsame
  obtain ⟨kept, hkept, rfl⟩ := List.mem_map.mp hv
  exact ⟨kept, hkept, hsame⟩

/-- Dropping repeated values a second time drops nothing. -/
theorem distinctBy_idem (entries : List α) :
    distinctBy value [] (distinctBy value [] entries) = distinctBy value [] entries :=
  distinctBy_eq_self (pairwise_distinctBy [] entries) (by simp)

end ObjectQuery.Value
