import ObjectQuery.Proofs.Engine.Scoping
import ObjectQuery.Proofs.Lowering.Nothing
import ObjectQuery.Proofs.Lowering.Paging

/-!
# Existence and number

Whether a model has a result, and how many it has, can be asked in several
ways: by an operator at the end of the model, or by a method that is applied
to the model as a subquery. What becomes of the question differs. The
operator for existence leaves a bare test, from which the projection and the
dropping of repeated values are removed, unless the rows are paged, since
then the aggregate has to stay. The operator for the number is an aggregate
in any case. The methods become functions of the list that the subquery
returns.

All of them agree with that list. A projection makes one row of each scope,
so without it there are as many; the item that is selected instead is always
bound, since joins, filters and the order keep what the source has bound. And
where repeated values are dropped, the first one stays.

## Main definitions

* `Hql.Query.page` — the rows of a query before its aggregate.

## Main results

* `Hql.Query.existing_page` — a bare test finds a row exactly where the query
  has one.
* `any_count_agree` — existence and number of the results of a model, on
  every route.
-/

namespace ObjectQuery

open Hql (Node Query Aggregate)

/-! ## Scopes that are left -/

/-- A name that is bound has an item. -/
theorem Scope.exists_item {scope : Scope} {name : String} (h : name ∈ scope.names) :
    ∃ v, scope.item name = .ok v := by
  have hresolves := item_resolves h
  unfold item at hresolves ⊢
  cases hlookup : scope.lookup name with
  | some v => exact ⟨v, rfl⟩
  | none =>
      rw [hlookup] at hresolves
      exact absurd rfl (hresolves name)

theorem keepTrue_sublist {condition : Scope → Outcome Value} {scopes kept : List Scope}
    (h : keepTrue condition scopes = .ok kept) : kept.Sublist scopes := by
  induction scopes generalizing kept with
  | nil =>
      obtain rfl := Except.ok.inj h
      exact .slnil
  | cons scope rest ih =>
      rw [keepTrue] at h
      obtain ⟨v, -, h⟩ := bind_eq_ok.mp h
      obtain ⟨others, hothers, h⟩ := bind_eq_ok.mp h
      obtain rfl := Except.ok.inj h
      cases v.isTrue with
      | true => exact (ih hothers).cons_cons scope
      | false => exact (ih hothers).cons scope

theorem sortScopes_perm {directions : List Direction} {keys : Scope → Outcome (List Value)}
    {scopes sorted : List Scope} (h : sortScopes directions keys scopes = .ok sorted) :
    sorted.Perm scopes := by
  unfold sortScopes at h
  obtain ⟨keyed, hkeyed, h⟩ := bind_eq_ok.mp h
  obtain rfl := Except.ok.inj h
  have hscopes : ∀ {scopes : List Scope} {keyed : List (List Value × Scope)},
      (scopes.mapM fun scope => do return (← keys scope, scope)) = .ok keyed →
        keyed.map (·.2) = scopes := by
    intro scopes
    induction scopes with
    | nil =>
        intro keyed hkeyed
        obtain rfl := Except.ok.inj hkeyed
        rfl
    | cons scope rest ih =>
        intro keyed hkeyed
        rw [List.mapM_cons] at hkeyed
        obtain ⟨entry, hentry, hkeyed⟩ := bind_eq_ok.mp hkeyed
        obtain ⟨ks, -, hentry⟩ := bind_eq_ok.mp hentry
        obtain ⟨others, hothers, hkeyed⟩ := bind_eq_ok.mp hkeyed
        obtain rfl := Except.ok.inj hentry
        obtain rfl := Except.ok.inj hkeyed
        rw [List.map_cons, ih hothers]
  rw [← hscopes hkeyed]
  exact (List.mergeSort_perm keyed _).map _

/-- As many rows are selected as there are scopes. -/
theorem length_selectRows {select : Scope → Outcome Value} {scopes : List Scope}
    {rows : List Row} (h : selectRows select scopes = .ok rows) :
    rows.length = scopes.length := by
  have hoption := toOption_eq_some.mpr h
  rw [selectRows, toOption_mapM] at hoption
  exact length_of_mapM hoption

/-- Where every scope has a value, rows are selected. -/
theorem exists_selectRows {select : Scope → Outcome Value} {scopes : List Scope}
    (h : ∀ scope ∈ scopes, ∃ v, select scope = .ok v) :
    ∃ rows, selectRows select scopes = .ok rows := by
  unfold selectRows
  induction scopes with
  | nil => exact ⟨[], rfl⟩
  | cons scope rest ih =>
      obtain ⟨⟨v, hv⟩, hrest⟩ := List.forall_mem_cons.mp h
      obtain ⟨rows, hrows⟩ := ih hrest
      rw [List.mapM_cons, hv, hrows]
      exact ⟨⟨v, scope⟩ :: rows, rfl⟩

/-- Where repeated values are dropped, the first one stays. -/
theorem Value.isEmpty_distinctBy {α : Type} (value : α → Value) (entries : List α) :
    (distinctBy value [] entries).isEmpty = entries.isEmpty := by
  cases entries with
  | nil => rfl
  | cons entry rest =>
      rw [distinctBy, List.any_nil, if_neg Bool.false_ne_true]
      rfl

namespace Hql

variable {env : Environment} {outer : Scope} {name : String}

private theorem joinScopes_binds {joined : String} {items : Scope → Outcome (List Value)}
    {condition : Scope → Outcome Value} {scopes next : List Scope}
    (h : joinScopes joined items condition scopes = .ok next)
    (hbinds : ∀ scope ∈ scopes, name ∈ scope.names) : ∀ scope ∈ next, name ∈ scope.names := by
  induction scopes generalizing next with
  | nil =>
      obtain rfl := Except.ok.inj h
      exact hbinds
  | cons scope rest ih =>
      obtain ⟨hscope, hrest⟩ := List.forall_mem_cons.mp hbinds
      rw [joinScopes] at h
      obtain ⟨here, -, h⟩ := bind_eq_ok.mp h
      obtain ⟨kept, hkept, h⟩ := bind_eq_ok.mp h
      obtain ⟨others, hothers, h⟩ := bind_eq_ok.mp h
      obtain rfl := Except.ok.inj h
      refine List.forall_mem_append.mpr ⟨fun extended hextended => ?_, ih hothers hrest⟩
      obtain ⟨item, -, rfl⟩ := List.mem_map.mp ((keepTrue_sublist hkept).subset hextended)
      exact List.mem_cons_of_mem joined hscope

private theorem runJoins_binds {joins : List Join} {scopes next : List Scope}
    (h : runJoins env joins scopes = .ok next) (hbinds : ∀ scope ∈ scopes, name ∈ scope.names) :
    ∀ scope ∈ next, name ∈ scope.names := by
  induction joins generalizing scopes with
  | nil =>
      rw [runJoins] at h
      obtain rfl := Except.ok.inj h
      exact hbinds
  | cons join rest ih =>
      obtain ⟨source, joined, on⟩ := join
      rw [runJoins] at h
      obtain ⟨further, hfurther, h⟩ := bind_eq_ok.mp h
      exact ih h (joinScopes_binds hfurther hbinds)

theorem runFilter_sublist {filter : Option Node} {scopes kept : List Scope}
    (h : runFilter env filter scopes = .ok kept) : kept.Sublist scopes := by
  cases filter with
  | none =>
      rw [runFilter] at h
      obtain rfl := Except.ok.inj h
      exact .refl scopes
  | some condition =>
      rw [runFilter] at h
      exact keepTrue_sublist h

/-! ## Pages -/

namespace Query

variable {q : Query}

/-- The scopes of a query in which its rows are selected. -/
def scopes (env : Environment) (q : Query) (outer : Scope) (items : List Value) :
    Outcome (List Scope) := do
  let scopes ← runJoins env q.joins (items.map fun item => (q.name, item) :: outer)
  let scopes ← runFilter env q.filter scopes
  let scopes ← runFilter env q.having scopes
  sortScopes (q.order.map OrderKey.direction) (evalKeys env q.order) scopes

private theorem selected_eq (q : Query) (items : List Value) :
    q.selected env outer items = q.scopes env outer items >>= selectRows fun scope =>
      match q.select with
      | some node => node.eval env scope
      | none => scope.item q.name := by
  unfold scopes
  simp only [bind_assoc]
  rfl

/-- In every scope of a query, the item of its source is bound. -/
theorem scopes_bind {items : List Value} {left : List Scope}
    (h : q.scopes env outer items = .ok left) : ∀ scope ∈ left, q.name ∈ scope.names := by
  unfold scopes at h
  obtain ⟨joined, hjoined, h⟩ := bind_eq_ok.mp h
  obtain ⟨filtered, hfiltered, h⟩ := bind_eq_ok.mp h
  obtain ⟨kept, hkept, h⟩ := bind_eq_ok.mp h
  have hbinds : ∀ scope ∈ joined, q.name ∈ scope.names :=
    runJoins_binds hjoined (List.forall_mem_map.mpr fun item _ => List.mem_cons_self)
  intro scope hscope
  exact hbinds scope ((runFilter_sublist hfiltered).subset
    ((runFilter_sublist hkept).subset ((sortScopes_perm h).mem_iff.mp hscope)))

/-- The rows that are left of the selected ones when repeated values are dropped and
rows are skipped and taken. -/
def paged (env : Environment) (q : Query) (outer : Scope) (rows : List Row) :
    Outcome (List Row) := do
  let rows := q.distinctRows rows
  let skipped ← evalCount env q.skip outer
  let rows := rows.drop (skipped.getD 0)
  let taken ← evalCount env q.take outer
  return rows.take (taken.getD rows.length)

/-- The rows of a query before its aggregate. -/
def page (env : Environment) (q : Query) (outer : Scope) : Outcome (List Row) := do
  q.paged env outer (← q.rows env outer)

/-- A run is the page, reduced. -/
theorem run_eq_page (q : Query) (outer : Scope) :
    q.run env outer =
      q.page env outer >>= fun rows => runAggregate env q.aggregate rows outer := by
  rw [run_eq]
  unfold page rows paged finish
  simp only [bind_assoc, pure_bind]

/-- Without an aggregate a run lists the page. -/
theorem run_list_iff (haggregate : q.aggregate = none) {xs : List Value} :
    q.run env outer = .ok (.list xs) ↔
      ∃ rows, q.page env outer = .ok rows ∧ rows.map Row.value = xs := by
  rw [run_eq_page, haggregate, bind_eq_ok]
  refine exists_congr fun rows => and_congr_right fun _ => ?_
  rw [runAggregate, Except.ok.injEq, Value.list.injEq]

/-- Where no rows are skipped or taken, all different rows are left. -/
theorem paged_of_unpaged (hskip : q.skip = none) (htake : q.take = none) (rows : List Row) :
    q.paged env outer rows = .ok (q.distinctRows rows) := by
  unfold paged
  rw [hskip, htake]
  simp only [evalCount, ok_bind, Option.getD_none, List.drop_zero, List.take_length]
  rfl

/-- A query that is not paged, without its projection and without dropping repeated
values, has a row exactly where the query has one. -/
theorem existing_page (hskip : q.skip = none) (htake : q.take = none) {rows : List Row}
    (h : q.page env outer = .ok rows) :
    ∃ others, q.existing.page env outer = .ok others ∧ others.isEmpty = rows.isEmpty := by
  obtain ⟨selected, hselected, hpaged⟩ := bind_eq_ok.mp h
  obtain ⟨items, hitems, hselected⟩ := bind_eq_ok.mp hselected
  rw [selected_eq] at hselected
  obtain ⟨left, hleft, hselected⟩ := bind_eq_ok.mp hselected
  rw [paged_of_unpaged hskip htake] at hpaged
  obtain rfl := Except.ok.inj hpaged
  -- the item of the source is selected instead, which every scope has
  obtain ⟨others, hothers⟩ := exists_selectRows fun scope hscope =>
    Scope.exists_item (scopes_bind hleft scope hscope)
  have hexisting : q.existing.rows env outer = .ok others := by
    refine bind_eq_ok.mpr ⟨items, hitems, ?_⟩
    rw [selected_eq]
    exact bind_eq_ok.mpr ⟨left, hleft, hothers⟩
  have hrows : q.existing.paged env outer others = .ok others :=
    paged_of_unpaged (q := q.existing) hskip htake others
  refine ⟨others, bind_eq_ok.mpr ⟨others, hexisting, hrows⟩, ?_⟩
  have hlength : others.length = selected.length :=
    (length_selectRows hothers).trans (length_selectRows hselected).symm
  have hdistinct : (q.distinctRows selected).isEmpty = selected.isEmpty := by
    unfold distinctRows
    cases q.distinct with
    | true => exact Value.isEmpty_distinctBy Row.value selected
    | false => rfl
  rw [hdistinct, Bool.eq_iff_iff, List.isEmpty_iff_length_eq_zero,
    List.isEmpty_iff_length_eq_zero, hlength]

end Query

/-! ## Subqueries that ask -/

namespace Node

variable {q : Query} {rows : List Row}

/-- The question whether there is a row, put to the page. -/
theorem ofQuery_any_eval (h : q.page env outer = .ok rows) :
    (ofQuery { q with aggregate := some .any }).eval env outer = .ok (.boolean !rows.isEmpty) := by
  have hasks : ({ q with aggregate := some .any } : Query).asksExistence =
      (q.skip.isNone && q.take.isNone) := rfl
  rw [ofQuery_eq, hasks]
  cases hunpaged : q.skip.isNone && q.take.isNone with
  | true =>
      rw [Bool.and_eq_true, Option.isNone_iff_eq_none, Option.isNone_iff_eq_none] at hunpaged
      obtain ⟨others, hothers, hempty⟩ := Query.existing_page hunpaged.1 hunpaged.2 h
      have hrun : q.existing.run env outer = .ok (.list (others.map Row.value)) :=
        (Query.run_list_iff rfl).mpr ⟨others, hothers, rfl⟩
      show (nonempty q.existing).eval env outer = _
      rw [nonempty_eval, hrun, ← hempty]
      show Except.ok (Value.boolean !(others.map Row.value).isEmpty) = _
      rw [List.isEmpty_map]
  | false =>
      show (subquery { q with aggregate := some .any }).eval env outer = _
      have hpage : ({ q with aggregate := some .any } : Query).page env outer = .ok rows := h
      rw [eval, Query.run_eq_page, hpage, ok_bind, runAggregate]

/-- The question how many rows there are, put to the page. -/
theorem ofQuery_count_eval (h : q.page env outer = .ok rows) :
    (ofQuery { q with aggregate := some .count }).eval env outer =
      .ok (.ofCount rows.length) := by
  have hpage : ({ q with aggregate := some .count } : Query).page env outer = .ok rows := h
  show (subquery { q with aggregate := some .count }).eval env outer = _
  rw [eval, Query.run_eq_page, hpage, ok_bind, runAggregate]

/-- A function of one operand. -/
theorem function_eval {function : String} {operand : Node} {v : Value}
    (h : operand.eval env outer = .ok v) :
    (Node.function function [operand]).eval env outer = Value.call function [v] := by
  rw [eval, evalAll, evalAll, h]
  rfl

end Node

end Hql

/-! ## Models that ask -/

variable {registry : Registry} {limit depth : Nat} {model : QueryModel}

/-- A model without a reduction has no operator that leaves a single value. -/
theorem QueryModel.reduction?_eq_none_iff :
    model.reduction? = none ↔ ∀ operator ∈ model.operators, operator.isScalar = false := by
  unfold reduction?
  rw [List.find?_eq_none]
  simp only [List.mem_reverse, Bool.not_eq_true]

namespace QueryModel.LowersTo

variable {query : Query}

/-- Without an operator that leaves a single value there is no aggregate. -/
theorem aggregate_eq_none (h : model.LowersTo registry limit depth query)
    (hlist : ∀ operator ∈ model.operators, operator.isScalar = false) :
    query.aggregate = none := by
  have hreduces := h.aggregate_reduces
  rw [reduction?_eq_none_iff.mpr hlist] at hreduces
  generalize query.aggregate = aggregate at hreduces
  cases hreduces
  rfl

/-- One more operator that leaves a single value becomes the aggregate. -/
theorem reduced (h : model.LowersTo registry limit depth query) (hnone : query.aggregate = none)
    {operator : ResultOperator} {aggregate : Aggregate}
    (hstage : (operator.stage registry limit depth).outcome = .ok (.reduce aggregate)) :
    (model.after (.operator operator)).LowersTo registry limit depth
      { query with aggregate := some aggregate } := by
  obtain ⟨stages, hstages, hadmits, htail⟩ := lowerOperators_eq_ok.mp h.tail
  refine ⟨h.source, h.name, h.joins, h.filter, h.having, h.order, h.select,
    lowerOperators_eq_ok.mpr ⟨stages ++ [.reduce aggregate], ?_, ?_, ?_⟩⟩
  · rw [mapM_stage_outcome_iff] at hstages ⊢
    exact List.rel_append hstages (.cons hstage .nil)
  · rw [Tail.admitsAll_append, htail]
    exact ⟨hadmits, ⟨hnone, fun _ hskip => by cases hskip⟩, trivial⟩
  · rw [List.foldl_append, htail]
    rfl

end QueryModel.LowersTo

/-! ## Methods that ask -/

namespace Generator

variable {site : CallSite} {n : Node}

private theorem emit_collectionAny (h : site.operands = [n]) :
    collectionAny.emit site = .ok (.function "exists" [n]) := by
  rw [emit, CallSite.sole, h]
  rfl

private theorem emit_collectionCount (h : site.operands = [n]) :
    collectionCount.emit site = .ok (.function "size" [n]) := by
  rw [emit, CallSite.sole, h]
  rfl

end Generator

/-- A call of a method on a single operand that is not taken apart becomes what the
handler makes of the node of the operand. The operand is a target or an argument. -/
theorem Expr.call_lowersTo_of_sole {handler : Handler} {method : MethodSignature}
    {target : Option Expr} {arguments : List Expr} {operand : Expr} {n m : Node}
    (type : StaticType) (hlookup : registry.lookup method = some handler)
    (hsole : target.toList ++ arguments = [operand]) (hwhole : operand.isExpandable = false)
    (hoperand : operand.LowersTo registry limit depth n)
    (hemit : ∀ site : CallSite, site.operands = [n] → handler.generator.emit site = .ok m) :
    (call method target arguments type).LowersTo registry limit depth m := by
  unfold LowersTo
  rw [lower_call_eq hlookup]
  cases target with
  | none =>
      obtain rfl : arguments = [operand] := hsole
      rw [overTarget, overArguments_cons, over_of_not_isExpandable hwhole, overArguments]
      show (callHandler handler method ((none : Option Expr).map (asOperand registry limit depth))
        ([operand].map (asOperand registry limit depth))).outcome = _
      exact callHandler_outcome_iff.mpr ⟨none, [n], .none, .cons hoperand .nil, hemit _ rfl⟩
  | some e =>
      obtain ⟨rfl, rfl⟩ := List.cons_eq_cons.mp hsole
      rw [overTarget_some, over_of_not_isExpandable hwhole, overArguments]
      show (callHandler handler method ((some e).map (asOperand registry limit depth))
        (([] : List Expr).map (asOperand registry limit depth))).outcome = _
      exact callHandler_outcome_iff.mpr ⟨some n, [], .some hoperand, .nil, hemit _ rfl⟩

/-- A length that fits into a word is counted exactly. -/
theorem Value.ofCount_exact {n : Nat} (h : (n : Int) ≤ Int64.maxValue.toInt) :
    ∃ w : Int64, ofCount n = .integer w ∧ w.toInt = n := by
  have hmax : Int64.maxValue.toInt = 2 ^ 63 - 1 := by decide
  exact ⟨Int64.ofNat n, rfl, Int64.toInt_ofNat_of_lt (by omega)⟩

/-! ## Every route -/

section

variable {env : Environment} {scope : Scope}

private theorem Expr.value?_eq_some_iff {e : Expr} {v : Value} :
    e.value? registry limit depth env scope = some v ↔
      ∃ n, e.LowersTo registry limit depth n ∧ n.eval env scope = .ok v := by
  simp only [value?, Option.bind_eq_bind, Option.bind_eq_some_iff, toOption_eq_some]
  rfl

/-- Where a model without an operator that leaves a single value, as a subquery, has a
list of results, all ways to ask for their existence and their number agree with the
list: the operators at the end of the model, and the default methods applied to the
subquery, be it as their target or as their argument. -/
theorem any_count_agree {xs : List Value}
    (hany : registry.lookup anyMethod = Registry.withDefaults.lookup anyMethod)
    (hcount : registry.lookup countMethod = Registry.withDefaults.lookup countMethod)
    (hlist : ∀ operator ∈ model.operators, operator.isScalar = false)
    (hvalue : (Expr.subquery model).value? registry limit depth env scope = some (.list xs)) :
    (Expr.subquery (model.after (.operator .any))).value? registry limit depth env scope =
        some (.boolean !xs.isEmpty) ∧
      (∀ operator, operator = .count ∨ operator = .longCount →
        (Expr.subquery (model.after (.operator operator))).value? registry limit depth env scope =
          some (.ofCount xs.length)) ∧
      (∀ target arguments type, target.toList ++ arguments = [.subquery model] →
        (Expr.call anyMethod target arguments type).value? registry limit depth env scope =
            some (.boolean !xs.isEmpty) ∧
          (Expr.call countMethod target arguments type).value? registry limit depth env scope =
            some (.ofCount xs.length)) ∧
      ((xs.length : Int) ≤ Int64.maxValue.toInt →
        ∃ w : Int64, Value.ofCount xs.length = .integer w ∧ w.toInt = xs.length) := by
  obtain ⟨n, hn, heval⟩ := Expr.value?_eq_some_iff.mp hvalue
  obtain ⟨hdepth, query, hquery, rfl⟩ := Expr.lowersTo_subquery.mp hn
  have hnone := hquery.aggregate_eq_none hlist
  -- the list is that of the page
  have hlisted : (Node.ofQuery query).eval env scope = query.run env scope := by
    have hasks : query.asksExistence = false := by
      unfold Query.asksExistence
      rw [hnone]
      rfl
    rw [Node.ofQuery_eq, hasks, if_neg Bool.false_ne_true, Node.eval]
  obtain ⟨rows, hpage, rfl⟩ := (Query.run_list_iff hnone).mp (hlisted.symm.trans heval)
  have hempty : (rows.map Row.value).isEmpty = rows.isEmpty := List.isEmpty_map
  have hlength : (rows.map Row.value).length = rows.length := List.length_map _
  refine ⟨?_, ?_, ?_, Value.ofCount_exact⟩
  · have hstage : (ResultOperator.any.stage registry limit (depth + 1)).outcome =
        .ok (.reduce .any) := rfl
    rw [hempty]
    exact Expr.value?_eq_some_iff.mpr ⟨_, Expr.lowersTo_subquery.mpr
      ⟨hdepth, _, hquery.reduced hnone hstage, rfl⟩, Node.ofQuery_any_eval hpage⟩
  · intro operator hoperator
    have hstage : (operator.stage registry limit (depth + 1)).outcome = .ok (.reduce .count) := by
      rcases hoperator with rfl | rfl <;> rfl
    rw [hlength]
    exact Expr.value?_eq_some_iff.mpr ⟨_, Expr.lowersTo_subquery.mpr
      ⟨hdepth, _, hquery.reduced hnone hstage, rfl⟩, Node.ofQuery_count_eval hpage⟩
  · intro target arguments type hsole
    constructor
    · have hlowers := Expr.call_lowersTo_of_sole type (hany.trans rfl) hsole rfl hn
        fun site hsite => Generator.emit_collectionAny hsite
      refine Expr.value?_eq_some_iff.mpr ⟨_, hlowers, ?_⟩
      rw [Node.function_eval heval, hempty]
      cases rows <;> rfl
    · have hlowers := Expr.call_lowersTo_of_sole type (hcount.trans rfl) hsole rfl hn
        fun site hsite => Generator.emit_collectionCount hsite
      exact Expr.value?_eq_some_iff.mpr ⟨_, hlowers, Node.function_eval heval⟩

end

/-- The amounts but for the first one, each of them once. -/
def furtherAmounts : QueryModel :=
  { QueryModel.ofSource "e" (.entity "Invoice") (.constant (.queryable "Invoice")) with
    selector := some (.member (.source "e" (.entity "Invoice")) "Amount" .integer)
    operators := [.distinct, .skip (.constant (.integer 1))] }

/-- The query of `furtherAmounts`. -/
def furtherAmountsQuery : Query :=
  { Query.ofSource (.entity "Invoice") "e" with
    select := some (.dot (.ident "e") "Amount")
    distinct := true
    skip := some (.constant (.integer 1)) }

/-- Five different amounts, of which the first one is skipped. -/
theorem furtherAmounts_any_count :
    (Expr.subquery furtherAmounts).value? .withDefaults 8 0 sixAmounts [] =
        some (.list ([2, 3, 4, 5].map .integer)) ∧
      (Expr.subquery (furtherAmounts.after (.operator .any))).value? .withDefaults 8 0
        sixAmounts [] = some (.boolean true) ∧
      (Expr.subquery (furtherAmounts.after (.operator .count))).value? .withDefaults 8 0
        sixAmounts [] = some (.integer 4) ∧
      (Expr.call anyMethod none [.subquery furtherAmounts] .boolean).value? .withDefaults 8 0
        sixAmounts [] = some (.boolean true) ∧
      (Expr.call countMethod (some (.subquery furtherAmounts)) [] .integer).value? .withDefaults
        8 0 sixAmounts [] = some (.integer 4) := by
  have hvalue : (Expr.subquery furtherAmounts).value? .withDefaults 8 0 sixAmounts [] =
      some (.list ([2, 3, 4, 5].map .integer)) := by
    have hlowers : (Expr.subquery furtherAmounts).LowersTo .withDefaults 8 0
        (.subquery furtherAmountsQuery) := rfl
    refine Expr.value?_eq_some_iff.mpr ⟨_, hlowers, ?_⟩
    rw [Node.eval, Query.run_eq]
    simp only [Query.selected, furtherAmountsQuery, Query.ofSource, Hql.sortScopes_nil]
    rfl
  have hlist : ∀ operator ∈ furtherAmounts.operators, operator.isScalar = false := by
    intro operator hoperator
    rcases List.mem_pair.mp hoperator with rfl | rfl <;> rfl
  obtain ⟨hany, hcount, hmethods, -⟩ := any_count_agree rfl rfl hlist hvalue
  exact ⟨hvalue, hany, hcount .count (.inl rfl), (hmethods none _ .boolean rfl).1,
    (hmethods (some _) [] .integer rfl).2⟩

end ObjectQuery
