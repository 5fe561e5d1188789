import ObjectQuery.Proofs.Engine.Consistency

/-!
# A filter, its negation and its unknown part

A predicate is true, false or unknown in a scope. A filter keeps the scopes
in which it is true, the filter by its negation those in which it is false,
and the filter by its being null those in which it is unknown. If all three
filters succeed, then the predicate has no other value in any scope, so they
divide the scopes between them. Since each row is made of its own scope
alone, they divide the rows as well.

Only the order of the rows looks at several scopes at once. The keys of all
scopes together have to sort consistently; that those of each part do is not
enough.

## Main results

* `filter_perm_of_exclusive` — three tests of which each element passes one.
* `Hql.Query.rowsOf_filter` — filtering scopes is filtering rows.
* `Hql.Query.run_partition` — the rows of a query are those of the three
  filtered ones together, each in the order they have there.
-/

namespace ObjectQuery

open Hql (Node Query)

/-- Three tests of which each element of a list passes exactly one divide the list. -/
theorem filter_perm_of_exclusive {α : Type} {xs : List α} {p q r : α → Bool}
    (hpq : ∀ x ∈ xs, p x = true → q x = false)
    (hr : ∀ x ∈ xs, r x = (!p x && !q x)) :
    xs.Perm (xs.filter p ++ xs.filter q ++ xs.filter r) := by
  have hrest : ∀ x ∈ xs, (q x && !p x) = q x := by
    intro x hx
    cases hp : p x with
    | false => rw [Bool.not_false, Bool.and_true]
    | true => rw [hpq x hx hp, Bool.false_and]
  have hsplit := (List.filter_append_perm q (xs.filter fun x => !p x)).symm
  simp only [List.filter_filter] at hsplit
  rw [List.filter_congr hrest, ← List.filter_congr fun x hx => (hr x hx).trans (Bool.and_comm ..)]
    at hsplit
  refine (List.filter_append_perm p xs).symm.trans ?_
  rw [List.append_assoc]
  exact hsplit.append_left _

namespace Hql

variable {env : Environment} {outer : Scope}

namespace Node

variable {predicate : Node} {scope : Scope} {t : Option Bool}

private theorem not_eval_ofTruth (h : predicate.eval env scope = .ok (.ofTruth t)) :
    (not predicate).eval env scope = .ok (.ofTruth (t.map Bool.not)) := by
  rw [eval, h]
  cases t <;> rfl

private theorem isNull_eval_ofTruth (h : predicate.eval env scope = .ok (.ofTruth t)) :
    (isNull predicate).eval env scope = .ok (.boolean t.isNone) := by
  rw [eval, h]
  cases t <;> rfl

/-- Where the predicate, its negation or its unknown part is true, the predicate has one value. -/
theorem eval_of_meets (h : predicate.eval env scope = .ok (.ofTruth t)) :
    (meets (predicate.eval env) scope = true → predicate.eval env scope = .ok (.boolean true)) ∧
      (meets ((not predicate).eval env) scope = true →
        predicate.eval env scope = .ok (.boolean false)) ∧
      (meets ((isNull predicate).eval env) scope = true →
        predicate.eval env scope = .ok .null) := by
  rw [meets_of_eq_ok h, meets_of_eq_ok (not_eval_ofTruth h), meets_of_eq_ok (isNull_eval_ofTruth h),
    h]
  rcases t with _ | _ | _ <;> refine ⟨?_, ?_, ?_⟩ <;> intro hmeets <;>
    first | rfl | cases hmeets

/-- What can be negated is a truth value or unknown. -/
theorem exists_ofTruth_of_not_eval {v : Value} (h : (not predicate).eval env scope = .ok v) :
    ∃ t, predicate.eval env scope = .ok (.ofTruth t) := by
  rw [eval, bind_eq_ok] at h
  obtain ⟨w, hw, h⟩ := h
  cases w with
  | boolean b => exact ⟨some b, hw⟩
  | null => exact ⟨none, hw⟩
  | _ => cases h

end Node

/-! ## Scopes -/

/-- What has a scope is divided between a filter, its negation and its unknown part. -/
theorem partition_by_truth {α : Type} (scopeOf : α → Scope) {entries : List α} {predicate : Node}
    (h : ∀ entry ∈ entries, ∃ t, predicate.eval env (scopeOf entry) = .ok (.ofTruth t)) :
    entries.Perm ((entries.filter fun entry => meets (predicate.eval env) (scopeOf entry)) ++
      (entries.filter fun entry => meets ((Node.not predicate).eval env) (scopeOf entry)) ++
      (entries.filter fun entry => meets ((Node.isNull predicate).eval env) (scopeOf entry))) := by
  refine filter_perm_of_exclusive ?_ ?_
  · intro entry hentry hmeets
    obtain ⟨t, ht⟩ := h entry hentry
    rw [meets_of_eq_ok ht] at hmeets
    rw [meets_of_eq_ok (Node.not_eval_ofTruth ht)]
    rcases t with _ | _ | _
    · cases hmeets
    · cases hmeets
    · rfl
  · intro entry hentry
    obtain ⟨t, ht⟩ := h entry hentry
    rw [meets_of_eq_ok ht, meets_of_eq_ok (Node.not_eval_ofTruth ht),
      meets_of_eq_ok (Node.isNull_eval_ofTruth ht)]
    rcases t with _ | _ | _ <;> rfl

/-! ## Queries -/

namespace Query

variable {q : Query} {predicate : Node}

/-- The query with a filter. -/
def filteredBy (q : Query) (predicate : Node) : Query :=
  { q with filter := some predicate }

private theorem ListsAll.filteredBy (h : q.ListsAll) (predicate : Node) :
    (q.filteredBy predicate).ListsAll :=
  ⟨h.distinct, h.skip, h.take, h.aggregate⟩

/-- Where rows are found, the joins make scopes. -/
theorem exists_scopes_of_rows {rows : List Row}
    (h : (q.filteredBy predicate).rows env outer = .ok rows) :
    ∃ items scopes, (q.source.eval env outer >>= sourceItems) = .ok items ∧
      runJoins env q.joins (items.map fun item => (q.name, item) :: outer) = .ok scopes := by
  rw [rows_eq_rowsOf] at h
  obtain ⟨items, hitems, h⟩ := bind_eq_ok.mp h
  obtain ⟨scopes, hscopes, -⟩ := bind_eq_ok.mp h
  exact ⟨items, scopes, hitems, hscopes⟩

/-- The rows that a filter leaves are made of the scopes of the joins in which it is true,
and it has a value in all of them. -/
theorem filteredBy_rows_eq_ok {items : List Value} {scopes : List Scope} {rows : List Row}
    (hitems : (q.source.eval env outer >>= sourceItems) = .ok items)
    (hscopes : runJoins env q.joins (items.map fun item => (q.name, item) :: outer) = .ok scopes) :
    (q.filteredBy predicate).rows env outer = .ok rows ↔
      (∀ scope ∈ scopes, ∃ v, predicate.eval env scope = .ok v) ∧
        q.rowsOf env (scopes.filter (meets (predicate.eval env))) = .ok rows := by
  have hrows : (q.filteredBy predicate).rows env outer =
      keepTrue (predicate.eval env) scopes >>= q.rowsOf env := by
    rw [rows_eq_rowsOf]
    show ((q.source.eval env outer >>= sourceItems) >>= fun items =>
      runJoins env q.joins (items.map fun item => (q.name, item) :: outer) >>= fun scopes =>
        runFilter env (some predicate) scopes >>= q.rowsOf env) = _
    rw [hitems, ok_bind, hscopes, ok_bind]
    rfl
  rw [hrows, bind_eq_ok]
  simp only [keepTrue_eq_ok_iff]
  constructor
  · rintro ⟨_, ⟨hvalues, rfl⟩, h⟩
    exact ⟨hvalues, h⟩
  · rintro ⟨hvalues, h⟩
    exact ⟨_, ⟨hvalues, rfl⟩, h⟩

/-- Where the keys of scopes sort consistently, filtering the scopes is filtering their rows. -/
theorem rowsOf_filter {scopes : List Scope} {rows : List Row}
    (hrows : q.rowsOf env scopes = .ok rows)
    (hkeys : KeysSortConsistently (q.order.map OrderKey.direction) (evalKeys env q.order)
      (scopes.filter (meets (filterValue env q.having)))) (p : Scope → Bool) :
    q.rowsOf env (scopes.filter p) = .ok (rows.filter fun row => p row.scope) := by
  obtain ⟨kept, hkept, hrows⟩ := bind_eq_ok.mp hrows
  obtain ⟨sorted, hsorted, hselected⟩ := bind_eq_ok.mp hrows
  rw [runFilter_eq_keepTrue] at hkept
  obtain ⟨hhaving, rfl⟩ := keepTrue_eq_ok_iff.mp hkept
  obtain ⟨hproject, rfl⟩ := selectRows_eq_ok_iff.mp hselected
  refine bind_eq_ok.mpr ⟨(scopes.filter p).filter (meets (filterValue env q.having)), ?_, ?_⟩
  · rw [runFilter_eq_keepTrue]
    exact keepTrue_eq_ok_iff.mpr ⟨fun scope hscope => hhaving scope (List.mem_of_mem_filter hscope),
      rfl⟩
  · have hfiltered := sortScopes_filter hkeys hsorted p
    rw [List.filter_comm] at hfiltered
    refine bind_eq_ok.mpr ⟨_, hfiltered, selectRows_eq_ok_iff.mpr ⟨?_, ?_⟩⟩
    · exact fun scope hscope => hproject scope (List.mem_of_mem_filter hscope)
    · rw [List.filter_map]
      rfl

/-- If the rows that a filter, its negation and its unknown part leave can be found, then so
can all rows if their keys sort consistently. The three filters divide them and leave them in
their order. -/
theorem rows_partition (hkeys : q.SortsConsistently env outer) (hfilter : q.filter = none)
    {rowsTrue rowsFalse rowsUnknown : List Row}
    (htrue : (q.filteredBy predicate).rows env outer = .ok rowsTrue)
    (hfalse : (q.filteredBy (.not predicate)).rows env outer = .ok rowsFalse)
    (hunknown : (q.filteredBy (.isNull predicate)).rows env outer = .ok rowsUnknown) :
    ∃ rows, q.rows env outer = .ok rows ∧
      rows.Perm (rowsTrue ++ rowsFalse ++ rowsUnknown) ∧
      (rowsTrue.Sublist rows ∧ rowsFalse.Sublist rows ∧ rowsUnknown.Sublist rows) ∧
      (∀ row ∈ rowsTrue, predicate.eval env row.scope = .ok (.boolean true)) ∧
      (∀ row ∈ rowsFalse, predicate.eval env row.scope = .ok (.boolean false)) ∧
      ∀ row ∈ rowsUnknown, predicate.eval env row.scope = .ok .null := by
  obtain ⟨items, scopes, hitems, hscopes⟩ := exists_scopes_of_rows htrue
  rw [filteredBy_rows_eq_ok hitems hscopes] at htrue hfalse hunknown
  obtain ⟨-, htrue⟩ := htrue
  obtain ⟨hvalues, hfalse⟩ := hfalse
  obtain ⟨-, hunknown⟩ := hunknown
  have htruths : ∀ scope ∈ scopes, ∃ t, predicate.eval env scope = .ok (.ofTruth t) := by
    intro scope hscope
    obtain ⟨v, hv⟩ := hvalues scope hscope
    exact Node.exists_ofTruth_of_not_eval hv
  -- each scope is in one of the parts, whose rows can be found
  have hready : ∀ scope ∈ scopes, q.Ready env scope := by
    intro scope hscope
    have hmem := (partition_by_truth id htruths).mem_iff.mp hscope
    rcases List.mem_append.mp hmem with hmem | hmem
    · rcases List.mem_append.mp hmem with hmem | hmem
      · exact exists_rowsOf_iff.mp ⟨_, htrue⟩ scope hmem
      · exact exists_rowsOf_iff.mp ⟨_, hfalse⟩ scope hmem
    · exact exists_rowsOf_iff.mp ⟨_, hunknown⟩ scope hmem
  obtain ⟨rows, hrows⟩ := exists_rowsOf_iff.mpr hready
  have hfiltered : q.filtered env outer items =
      .ok (scopes.filter (meets (filterValue env q.having))) := by
    rw [filtered, hscopes, ok_bind, hfilter, runFilter, ok_bind, runFilter_eq_keepTrue]
    exact keepTrue_eq_ok_iff.mpr ⟨fun scope hscope => (hready scope hscope).having, rfl⟩
  have hparts := rowsOf_filter hrows (hkeys items _ hitems hfiltered)
  obtain rfl := Except.ok.inj ((hparts _).symm.trans htrue)
  obtain rfl := Except.ok.inj ((hparts _).symm.trans hfalse)
  obtain rfl := Except.ok.inj ((hparts _).symm.trans hunknown)
  have hrowTruths : ∀ row ∈ rows, ∃ t, predicate.eval env row.scope = .ok (.ofTruth t) :=
    fun row hrow => htruths row.scope (scope_mem_of_rowsOf hrows hrow)
  have hpart : ∀ {test : Node}, ∀ row ∈ rows.filter (fun row => meets (test.eval env) row.scope),
      ∃ t, predicate.eval env row.scope = .ok (.ofTruth t) ∧
        meets (test.eval env) row.scope = true := by
    intro test row hrow
    obtain ⟨hmem, hmeets⟩ := List.mem_filter.mp hrow
    obtain ⟨t, ht⟩ := hrowTruths row hmem
    exact ⟨t, ht, hmeets⟩
  refine ⟨rows, ?_, partition_by_truth Row.scope hrowTruths,
    ⟨List.filter_sublist, List.filter_sublist, List.filter_sublist⟩, ?_, ?_, ?_⟩
  · rw [rows_eq_rowsOf, hitems, ok_bind, hscopes, ok_bind, hfilter]
    exact hrows
  · intro row hrow
    obtain ⟨t, ht, hmeets⟩ := hpart row hrow
    exact (Node.eval_of_meets ht).1 hmeets
  · intro row hrow
    obtain ⟨t, ht, hmeets⟩ := hpart row hrow
    exact (Node.eval_of_meets ht).2.1 hmeets
  · intro row hrow
    obtain ⟨t, ht, hmeets⟩ := hpart row hrow
    exact (Node.eval_of_meets ht).2.2 hmeets

/-- Of a query that lists all its rows and has no filter of its own: if the query filtered by
a predicate, the one filtered by its negation and the one filtered by its being null have
results, and the keys of all rows sort consistently, then the query has a result too, which
consists of the three. Each of its rows is in exactly one of them: the one that the value of the
predicate in its scope tells. There it is in the place that the order gives it. -/
theorem run_partition (hlists : q.ListsAll) (hfilter : q.filter = none)
    (hkeys : q.SortsConsistently env outer) (predicate : Node)
    {u v w : Value} (htrue : (q.filteredBy predicate).run env outer = .ok u)
    (hfalse : (q.filteredBy (.not predicate)).run env outer = .ok v)
    (hunknown : (q.filteredBy (.isNull predicate)).run env outer = .ok w) :
    ∃ rows rowsTrue rowsFalse rowsUnknown,
      (q.rows env outer = .ok rows ∧
        q.run env outer = .ok (.list (rows.map Row.value))) ∧
      ((q.filteredBy predicate).rows env outer = .ok rowsTrue ∧
        u = .list (rowsTrue.map Row.value)) ∧
      ((q.filteredBy (.not predicate)).rows env outer = .ok rowsFalse ∧
        v = .list (rowsFalse.map Row.value)) ∧
      ((q.filteredBy (.isNull predicate)).rows env outer = .ok rowsUnknown ∧
        w = .list (rowsUnknown.map Row.value)) ∧
      rows.Perm (rowsTrue ++ rowsFalse ++ rowsUnknown) ∧
      (rows.map Row.value).Perm (rowsTrue.map Row.value ++ rowsFalse.map Row.value ++
        rowsUnknown.map Row.value) ∧
      (rowsTrue.Sublist rows ∧ rowsFalse.Sublist rows ∧ rowsUnknown.Sublist rows) ∧
      (∀ row ∈ rowsTrue, predicate.eval env row.scope = .ok (.boolean true)) ∧
      (∀ row ∈ rowsFalse, predicate.eval env row.scope = .ok (.boolean false)) ∧
      ∀ row ∈ rowsUnknown, predicate.eval env row.scope = .ok .null := by
  have hlist : ∀ {test : Node} {v : Value}, (q.filteredBy test).run env outer = .ok v →
      ∃ rows, (q.filteredBy test).rows env outer = .ok rows ∧
        v = .list (rows.map Row.value) := by
    intro test v h
    rw [(hlists.filteredBy test).run_eq, bind_eq_ok] at h
    obtain ⟨rows, hrows, h⟩ := h
    exact ⟨rows, hrows, (Except.ok.inj h).symm⟩
  obtain ⟨rowsTrue, htrue, hu⟩ := hlist htrue
  obtain ⟨rowsFalse, hfalse, hv⟩ := hlist hfalse
  obtain ⟨rowsUnknown, hunknown, hw⟩ := hlist hunknown
  obtain ⟨rows, hrows, hperm, hparts⟩ := rows_partition hkeys hfilter htrue hfalse hunknown
  have hrun : q.run env outer = .ok (.list (rows.map Row.value)) := by
    rw [hlists.run_eq, hrows, ok_bind]
  have hvalues := hperm.map Row.value
  rw [List.map_append, List.map_append] at hvalues
  exact ⟨rows, rowsTrue, rowsFalse, rowsUnknown, ⟨hrows, hrun⟩, ⟨htrue, hu⟩, ⟨hfalse, hv⟩,
    ⟨hunknown, hw⟩, hperm, hvalues, hparts⟩

/-- The visits by city. -/
def visitIdsByCity : Query :=
  { Query.ofSource (.entity "Visit") "v" with
    order := [⟨.dot (.ident "v") "City", .ascending⟩]
    select := some (.dot (.ident "v") "Id") }

/-- Whether a visit is longer than two nights. -/
def longVisit : Node :=
  .binary .greaterThan (.dot (.ident "v") "Nights") (.constant (.integer 2))

/-- The city of a visit. -/
def visitCity (scope : Scope) : List Value :=
  ((evalKeys visits visitIdsByCity.order scope).toOption).getD []

/-- The rows of the visits by city. -/
def visitRowsByCity : List Row :=
  [1, 3, 0, 2, 4].map fun n => rowIn (visitIdsByCity.project visits) (visitScopes.getD n [])

private theorem evalKeys_visitIdsByCity :
    ∀ scope ∈ visitScopes, evalKeys visits visitIdsByCity.order scope = .ok (visitCity scope) := by
  simp only [visitScopes, visitRecords, List.map_cons, List.map_nil, List.forall_mem_cons]
  exact ⟨rfl, rfl, rfl, rfl, rfl, List.forall_mem_nil _⟩

private theorem keysSortConsistently_visitIdsByCity :
    KeysSortConsistently [.ascending] (evalKeys visits visitIdsByCity.order) visitScopes := by
  apply keysSortConsistently_of_kinds evalKeys_visitIdsByCity (Eq.refl [Kind.string].length)
  simp only [visitScopes, visitRecords, List.map_cons, List.map_nil, List.forall_mem_cons]
  exact ⟨.cons (.string _) .nil, .cons (.null _) .nil, .cons (.string _) .nil,
    .cons (.string _) .nil, .cons (.string _) .nil, List.forall_mem_nil _⟩

private theorem visitIdsByCity_rowsOf :
    visitIdsByCity.rowsOf visits visitScopes = .ok visitRowsByCity := by
  have hsorted : (visitScopes.mergeSort fun a b =>
      Value.compareKeys [.ascending] (visitCity a) (visitCity b) != .gt) =
        [1, 3, 0, 2, 4].map fun n => visitScopes.getD n [] := by
    simp +decide [visitScopes, visitRecords, List.mergeSort, List.MergeSort.Internal.splitInTwo]
  have hsort := (sortScopes_eq evalKeys_visitIdsByCity).trans (congrArg Except.ok hsorted)
  exact bind_eq_ok.mpr ⟨visitScopes, rfl, bind_eq_ok.mpr ⟨_, hsort, rfl⟩⟩

/-- One visit is longer, three are not, and of one it is not known. -/
theorem visitIdsByCity_partition :
    ∃ rows rowsTrue rowsFalse rowsUnknown : List Row,
      visitIdsByCity.run visits [] = .ok (.list (rows.map Row.value)) ∧
      rowsTrue.map Row.value = [.integer 2] ∧
      rowsFalse.map Row.value = [.integer 4, .integer 1, .integer 5] ∧
      rowsUnknown.map Row.value = [.integer 3] ∧
      rows.Perm (rowsTrue ++ rowsFalse ++ rowsUnknown) := by
  have hlists : visitIdsByCity.ListsAll := ⟨rfl, rfl, rfl, rfl⟩
  have hitems : (visitIdsByCity.source.eval visits [] >>= sourceItems) =
      .ok (visitRecords.map .row) := rfl
  have hkeys : visitIdsByCity.SortsConsistently visits [] := by
    intro items scopes hitems' hscopes
    obtain rfl := Except.ok.inj (hitems.symm.trans hitems')
    obtain rfl := Except.ok.inj hscopes
    exact keysSortConsistently_visitIdsByCity
  have hrun : ∀ {test : Node}, (∀ scope ∈ visitScopes, ∃ v, test.eval visits scope = .ok v) →
      (visitIdsByCity.filteredBy test).run visits [] =
        .ok (.list ((visitRowsByCity.filter fun row =>
          meets (test.eval visits) row.scope).map Row.value)) := by
    intro test hvalues
    have hrows := rowsOf_filter visitIdsByCity_rowsOf keysSortConsistently_visitIdsByCity
      (meets (test.eval visits))
    rw [(hlists.filteredBy test).run_eq,
      (filteredBy_rows_eq_ok hitems rfl).mpr ⟨hvalues, hrows⟩, ok_bind]
  have htruths : ∀ scope ∈ visitScopes, ∃ t, longVisit.eval visits scope = .ok (.ofTruth t) := by
    simp only [visitScopes, visitRecords, List.map_cons, List.map_nil, List.forall_mem_cons]
    exact ⟨⟨some false, rfl⟩, ⟨some true, rfl⟩, ⟨none, rfl⟩, ⟨some false, rfl⟩, ⟨some false, rfl⟩,
      List.forall_mem_nil _⟩
  have htrue := hrun fun scope hscope => by
    obtain ⟨t, ht⟩ := htruths scope hscope
    exact ⟨_, ht⟩
  have hfalse := hrun fun scope hscope => by
    obtain ⟨t, ht⟩ := htruths scope hscope
    exact ⟨_, Node.not_eval_ofTruth ht⟩
  have hunknown := hrun fun scope hscope => by
    obtain ⟨t, ht⟩ := htruths scope hscope
    exact ⟨_, Node.isNull_eval_ofTruth ht⟩
  obtain ⟨rows, rowsTrue, rowsFalse, rowsUnknown, ⟨-, hrows⟩, ⟨-, hu⟩, ⟨-, hv⟩, ⟨-, hw⟩,
      hperm, -⟩ :=
    run_partition hlists rfl hkeys longVisit htrue hfalse hunknown
  exact ⟨rows, rowsTrue, rowsFalse, rowsUnknown, hrows, (Value.list.inj hu).symm,
    (Value.list.inj hv).symm, (Value.list.inj hw).symm, hperm⟩

/-- A reading of a level, with whether it is exact. -/
def readingRecord (exact : Bool) (level : Json) : Record :=
  [("Level", level), ("Exact", .bool exact)]

/-- Three exact readings between others that were rounded. The rounded ones are the double that
is nearest to each of the three. -/
def readingRecords : List Record :=
  let rounded := readingRecord false (.float (Word64.toDouble 18014398509481984))
  readingRecord true (.integer 18014398509481986) ::
    readingRecord true (.integer 18014398509481985) :: List.replicate 9 rounded ++
      readingRecord true (.integer 18014398509481984) :: List.replicate 10 rounded

/-- The environment with the readings. -/
def readings : Environment :=
  ⟨⟨[("Reading", readingRecords)]⟩, []⟩

/-- The readings by level. -/
def readingsByLevel : Query :=
  { Query.ofSource (.entity "Reading") "r" with
    order := [⟨.dot (.ident "r") "Level", .ascending⟩] }

/-- Whether a reading is exact. -/
def exactReading : Node :=
  .dot (.ident "r") "Exact"

/-- The scopes of the readings. -/
def readingScopes : List Scope :=
  readingRecords.map fun record => [("r", .row record)]

/-- The level of a reading. -/
def readingLevel (scope : Scope) : List Value :=
  ((evalKeys readings readingsByLevel.order scope).toOption).getD []

private theorem evalKeys_readingsByLevel :
    ∀ scope ∈ readingScopes,
      evalKeys readings readingsByLevel.order scope = .ok (readingLevel scope) := by
  intro scope hscope
  obtain ⟨record, -, rfl⟩ := List.mem_map.mp hscope
  rfl

/-- A reading is exact and has an integer for its level, or it is not and has the double. -/
private theorem readingLevel_cases :
    ∀ scope ∈ readingScopes,
      (exactReading.eval readings scope = .ok (.ofTruth (some true)) ∧
        ∃ n, readingLevel scope = [.integer n]) ∨
      (exactReading.eval readings scope = .ok (.ofTruth (some false)) ∧
        readingLevel scope = [.decimal (Word64.toDouble 18014398509481984)]) := by
  simp only [readingScopes, readingRecords, List.map_append, List.map_cons, List.map_replicate,
    List.forall_mem_append, List.forall_mem_cons]
  refine ⟨⟨.inl ⟨rfl, _, rfl⟩, .inl ⟨rfl, _, rfl⟩, ?_⟩, .inl ⟨rfl, _, rfl⟩, ?_⟩
  · intro scope hscope
    obtain rfl := List.eq_of_mem_replicate hscope
    exact .inr ⟨rfl, rfl⟩
  · intro scope hscope
    obtain rfl := List.eq_of_mem_replicate hscope
    exact .inr ⟨rfl, rfl⟩

/-- A part of the readings has a result, and sorts consistently if its levels do. -/
private theorem readingsByLevel_filteredBy {test : Node}
    (hvalues : ∀ scope ∈ readingScopes, ∃ v, test.eval readings scope = .ok v)
    (hcolumn : Value.SortsConsistently ((readingScopes.filter (meets (test.eval readings))).map
      fun scope => (readingLevel scope).getD 0 .null)) :
    (readingsByLevel.filteredBy test).SortsConsistently readings [] ∧
      ∃ v, (readingsByLevel.filteredBy test).run readings [] = .ok v := by
  have hitems : (readingsByLevel.source.eval readings [] >>= sourceItems) =
      .ok (readingRecords.map .row) := rfl
  have hkeys : ∀ scope ∈ readingScopes.filter (meets (test.eval readings)),
      evalKeys readings readingsByLevel.order scope = .ok (readingLevel scope) :=
    fun scope hscope => evalKeys_readingsByLevel scope (List.mem_of_mem_filter hscope)
  constructor
  · intro items scopes hitems' hscopes
    obtain rfl := Except.ok.inj (hitems.symm.trans hitems')
    have hfiltered : (readingsByLevel.filteredBy test).filtered readings []
        (readingRecords.map .row) =
          .ok (readingScopes.filter (meets (test.eval readings))) := by
      refine bind_eq_ok.mpr ⟨readingScopes, rfl, bind_eq_ok.mpr ⟨_, ?_, rfl⟩⟩
      exact keepTrue_eq_ok_iff.mpr ⟨hvalues, rfl⟩
    obtain rfl := Except.ok.inj (hfiltered.symm.trans hscopes)
    apply keysSortConsistently_of_columns hkeys
    · intro scope hscope
      exact length_evalKeys (hkeys scope hscope)
    · intro n hn
      obtain rfl : n = 0 := Nat.lt_one_iff.mp hn
      exact hcolumn
  · have hlists : readingsByLevel.ListsAll := ⟨rfl, rfl, rfl, rfl⟩
    have hready : ∀ scope ∈ readingScopes.filter (meets (test.eval readings)),
        readingsByLevel.Ready readings scope := by
      intro scope hscope
      obtain ⟨record, -, rfl⟩ := List.mem_map.mp (List.mem_of_mem_filter hscope)
      exact ⟨⟨_, rfl⟩, fun _ => ⟨_, rfl⟩, fun _ => ⟨_, rfl⟩⟩
    obtain ⟨rows, hrows⟩ := exists_rowsOf_iff.mpr hready
    rw [(hlists.filteredBy test).run_eq,
      (filteredBy_rows_eq_ok hitems rfl).mpr ⟨hvalues, hrows⟩, ok_bind]
    exact ⟨_, rfl⟩

private theorem exactReadings_sortConsistently :
    Value.SortsConsistently ((readingScopes.filter (meets (exactReading.eval readings))).map
      fun scope => (readingLevel scope).getD 0 .null) := by
  have hinteger : ∀ v ∈ (readingScopes.filter (meets (exactReading.eval readings))).map
      (fun scope => (readingLevel scope).getD 0 .null), ∃ n, v = .integer n := by
    intro v hv
    obtain ⟨scope, hscope, rfl⟩ := List.mem_map.mp hv
    obtain ⟨hscope, hmeets⟩ := List.mem_filter.mp hscope
    rcases readingLevel_cases scope hscope with ⟨-, n, hn⟩ | ⟨h, -⟩
    · exact ⟨n, by rw [hn]; rfl⟩
    · rw [meets_of_eq_ok h] at hmeets
      cases hmeets
  apply Value.IsOfOneFamily.sortsConsistently
  refine ⟨⟨.number, fun v hv _ => ?_⟩, fun _ _ x _ hx _ _ _ => ?_⟩
  · obtain ⟨n, rfl⟩ := hinteger v hv
    exact Value.family?_eq_number_iff.mpr ⟨_, Value.place?_integer n⟩
  · obtain ⟨n, hn⟩ := hinteger _ hx
    cases hn

private theorem roundedReadings_sortConsistently :
    Value.SortsConsistently ((readingScopes.filter
      (meets ((Node.not exactReading).eval readings))).map
        fun scope => (readingLevel scope).getD 0 .null) := by
  have hdouble : ∀ v ∈ (readingScopes.filter (meets ((Node.not exactReading).eval readings))).map
      (fun scope => (readingLevel scope).getD 0 .null),
        v = .decimal (Word64.toDouble 18014398509481984) := by
    intro v hv
    obtain ⟨scope, hscope, rfl⟩ := List.mem_map.mp hv
    obtain ⟨hscope, hmeets⟩ := List.mem_filter.mp hscope
    rcases readingLevel_cases scope hscope with ⟨h, -⟩ | ⟨-, hlevel⟩
    · rw [meets_of_eq_ok (Node.not_eval_ofTruth h)] at hmeets
      cases hmeets
    · rw [hlevel]
      rfl
  apply Value.AllTied.sortsConsistently
  intro a ha b hb _ _
  rw [hdouble a ha, hdouble b hb]
  decide

/-- The exact readings sort consistently, and so do the others; all of them together do not. -/
theorem readingsByLevel_not_sortsConsistently :
    (∀ test ∈ [exactReading, .not exactReading, .isNull exactReading],
      (readingsByLevel.filteredBy test).SortsConsistently readings [] ∧
        ∃ v, (readingsByLevel.filteredBy test).run readings [] = .ok v) ∧
      ¬ readingsByLevel.SortsConsistently readings [] := by
  have htruths : ∀ scope ∈ readingScopes, ∃ b,
      exactReading.eval readings scope = .ok (.ofTruth (some b)) := by
    intro scope hscope
    rcases readingLevel_cases scope hscope with ⟨h, -⟩ | ⟨h, -⟩
    · exact ⟨_, h⟩
    · exact ⟨_, h⟩
  constructor
  · simp only [List.forall_mem_cons]
    refine ⟨readingsByLevel_filteredBy ?_ exactReadings_sortConsistently,
      readingsByLevel_filteredBy ?_ roundedReadings_sortConsistently,
      readingsByLevel_filteredBy ?_ ?_, List.forall_mem_nil _⟩
    · exact fun scope hscope => (htruths scope hscope).elim fun _ h => ⟨_, h⟩
    · exact fun scope hscope => (htruths scope hscope).elim fun _ h => ⟨_, Node.not_eval_ofTruth h⟩
    · exact fun scope hscope =>
        (htruths scope hscope).elim fun _ h => ⟨_, Node.isNull_eval_ofTruth h⟩
    · -- every reading is exact or not
      have hnone :
          readingScopes.filter (meets ((Node.isNull exactReading).eval readings)) = [] := by
        refine List.filter_eq_nil_iff.mpr fun scope hscope => ?_
        obtain ⟨b, hb⟩ := htruths scope hscope
        rw [meets_of_eq_ok (Node.isNull_eval_ofTruth hb)]
        exact Bool.false_ne_true
      rw [hnone]
      exact Value.AllTied.sortsConsistently fun a ha => absurd ha List.not_mem_nil
  · -- the second reading may stand before a rounded one, and that before the last exact one
    intro h
    have hmem : ∀ n < readingScopes.length, readingScopes.getD n [] ∈ readingScopes := by
      intro n hn
      rw [List.getD_eq_getElem?_getD, List.getElem?_eq_getElem hn]
      exact List.getElem_mem hn
    have hlength : readingScopes.length = 22 := rfl
    have hle := h _ readingScopes rfl rfl _ (hmem 1 (by omega)) _ (hmem 2 (by omega)) _
      (hmem 11 (by omega)) _ _ _ rfl rfl rfl (by decide) (by decide)
    exact absurd hle (by decide)

end Query

end Hql

end ObjectQuery
