import ObjectQuery.Proofs.Engine.FreeNames
import ObjectQuery.Proofs.Engine.Rows

/-!
# Conditions of joins as a filter

A join drops the scopes that do not meet its condition before the next join
multiplies the others. The same rows are found, in the same order, if the
joins drop nothing and a filter after them asks for all conditions at once: a
conjunction is true exactly if all its parts are, and a condition has the
same value in a scope and in all that later joins make of it, as long as it
uses no name that these bind.

The two differ in what they look at. A filter after all joins sees no scope
that a later join drops for want of items, but the join before it does, and so
the condition may fail there. That is the only difference: a query whose
filter comes late and has a result either has the same result with its
conditions in place, or one of them fails in a scope of which the later joins
would have made nothing.

## Main definitions

* `Hql.Node.IsConjunction` — a node asks for some conditions in order.
* `Hql.Query.FiltersLate` — the conditions of the joins of a query have become a
  filter.
* `Hql.Query.FailsUnextended` — a condition fails in a scope of which the later
  joins make nothing.

## Main results

* `Hql.runJoins_early` — joins with and without their conditions.
* `Hql.Query.run_of_filtersLate` — filtering late and early.
-/

namespace ObjectQuery

open Hql (Node Join Query)

/-- A conjunction is true exactly if both sides are. -/
theorem Value.isTrue_and {a b v : Value} (h : Value.binary .and a b = .ok v) :
    v.isTrue = (a.isTrue && b.isTrue) := by
  have hvalue : Value.connective .and false a b = .ok v := h
  clear h
  -- beside what is no truth value, the other side is false or there is an error
  cases a <;> cases b <;>
    grind [Value.connective, Value.connectiveMismatch, mismatch, Value.isTrue, Value.isNull]

/-! ## Scopes extended by joins -/

/-- Bindings in front do not matter to names that they do not bind. -/
theorem Scope.Agree.of_extension {names : List String} {front back : Scope}
    (h : ∀ name ∈ Scope.names front, name ∉ names) : Scope.Agree names (front ++ back) back := by
  induction front with
  | nil => exact fun _ _ => rfl
  | cons entry front ih =>
      obtain ⟨hentry, hfront⟩ := List.forall_mem_cons.mp h
      intro name hname
      have hunseen : Scope.Agree names ([] ++ entry :: (front ++ back)) ([] ++ (front ++ back)) :=
        .of_unseen entry.2 (.inr hentry)
      exact (hunseen name hname).trans (ih hfront name hname)

/-- The condition that all scopes meet. -/
def always : Scope → Outcome Value :=
  fun _ => .ok (.boolean true)

section

variable {condition : Scope → Outcome Value} {items : Scope → Outcome (List Value)}
  {name : String} {scopes next : List Scope}

private theorem keepTrue_always (scopes : List Scope) : keepTrue always scopes = .ok scopes := by
  rw [keepTrue_eq_ok_iff]
  exact ⟨fun _ _ => ⟨_, rfl⟩, List.filter_eq_self.mpr fun _ _ => rfl⟩

private theorem keepTrue_append (scopes others : List Scope) :
    keepTrue condition (scopes ++ others) = do
      let kept ← keepTrue condition scopes
      return kept ++ (← keepTrue condition others) := by
  induction scopes with
  | nil =>
      rw [List.nil_append, keepTrue, ok_bind]
      cases keepTrue condition others <;> rfl
  | cons scope scopes ih =>
      rw [List.cons_append, keepTrue, keepTrue, ih]
      simp only [bind_assoc, pure_bind]
      congr 1
      funext v
      cases v.isTrue <;> rfl

/-- If scopes cannot be filtered, then the condition fails in one of them. -/
theorem exists_of_keepTrue_eq_error {error : EvalError}
    (h : keepTrue condition scopes = .error error) :
    ∃ scope ∈ scopes, condition scope = .error error := by
  induction scopes with
  | nil => cases h
  | cons scope scopes ih =>
      rw [keepTrue] at h
      cases hscope : condition scope with
      | error e =>
          rw [hscope] at h
          cases h
          exact ⟨scope, List.mem_cons_self, hscope⟩
      | ok v =>
          rw [hscope, ok_bind] at h
          cases hrest : keepTrue condition scopes with
          | ok kept =>
              rw [hrest] at h
              cases h
          | error e =>
              rw [hrest] at h
              cases h
              obtain ⟨other, hother, herror⟩ := ih hrest
              exact ⟨other, List.mem_cons_of_mem _ hother, herror⟩

/-- One scope is extended after another. -/
theorem joinScopes_cons_eq_ok {scope : Scope}
    (h : joinScopes name items condition (scope :: scopes) = .ok next) :
    ∃ here kept others, items scope = .ok here ∧
      keepTrue condition (here.map fun item => (name, item) :: scope) = .ok kept ∧
      joinScopes name items condition scopes = .ok others ∧ kept ++ others = next := by
  rw [joinScopes] at h
  obtain ⟨here, hhere, h⟩ := bind_eq_ok.mp h
  obtain ⟨kept, hkept, h⟩ := bind_eq_ok.mp h
  obtain ⟨others, hothers, h⟩ := bind_eq_ok.mp h
  exact ⟨here, kept, others, hhere, hkept, hothers, Except.ok.inj h⟩

/-- Where the items are found, a join is a filter of all scopes extended by them. -/
theorem joinScopes_eq_keepTrue (h : joinScopes name items always scopes = .ok next) :
    joinScopes name items condition scopes = keepTrue condition next := by
  induction scopes generalizing next with
  | nil =>
      obtain rfl := Except.ok.inj h
      rfl
  | cons scope scopes ih =>
      obtain ⟨here, kept, others, hhere, hkept, hothers, rfl⟩ := joinScopes_cons_eq_ok h
      obtain rfl := Except.ok.inj ((keepTrue_always _).symm.trans hkept)
      rw [joinScopes, hhere, ok_bind, ih hothers, keepTrue_append]

/-- A test that does not look at the new item commutes with a join. -/
theorem joinScopes_filter {keep : Scope → Bool}
    (hkeep : ∀ scope item, keep ((name, item) :: scope) = keep scope)
    (h : joinScopes name items always scopes = .ok next) :
    joinScopes name items always (scopes.filter keep) = .ok (next.filter keep) := by
  induction scopes generalizing next with
  | nil =>
      obtain rfl := Except.ok.inj h
      rfl
  | cons scope scopes ih =>
      obtain ⟨here, kept, others, hhere, hkept, hothers, rfl⟩ := joinScopes_cons_eq_ok h
      obtain rfl := Except.ok.inj ((keepTrue_always _).symm.trans hkept)
      have hmap : ((here.map fun item => (name, item) :: scope).filter keep) =
          if keep scope then here.map fun item => (name, item) :: scope else [] := by
        rw [List.filter_map, show keep ∘ (fun item => (name, item) :: scope) =
          fun _ => keep scope from funext fun item => hkeep scope item]
        cases keep scope <;> simp
      rw [List.filter_append, hmap, List.filter_cons]
      cases keep scope with
      | false => exact ih hothers
      | true =>
          rw [if_pos rfl, if_pos rfl, joinScopes, hhere, ok_bind, keepTrue_always, ok_bind,
            ih hothers]
          rfl

/-- A joined scope is one of the scopes with an item. -/
theorem exists_of_mem_joinScopes (h : joinScopes name items condition scopes = .ok next)
    {joined : Scope} (hjoined : joined ∈ next) :
    ∃ scope ∈ scopes, ∃ here item, items scope = .ok here ∧ item ∈ here ∧
      joined = (name, item) :: scope := by
  induction scopes generalizing next with
  | nil =>
      obtain rfl := Except.ok.inj h
      cases hjoined
  | cons scope scopes ih =>
      obtain ⟨here, kept, others, hhere, hkept, hothers, rfl⟩ := joinScopes_cons_eq_ok h
      rcases List.mem_append.mp hjoined with hjoined | hjoined
      · obtain ⟨item, hitem, rfl⟩ := List.mem_map.mp ((keepTrue_sublist hkept).subset hjoined)
        exact ⟨scope, List.mem_cons_self, here, item, hhere, hitem, rfl⟩
      · obtain ⟨other, hother, hrest⟩ := ih hothers hjoined
        exact ⟨other, List.mem_cons_of_mem _ hother, hrest⟩

/-- Fewer scopes are joined as they are among the others. -/
theorem joinScopes_of_subset (h : joinScopes name items condition scopes = .ok next)
    {fewer : List Scope} (hfewer : fewer ⊆ scopes) :
    ∃ joined, joinScopes name items condition fewer = .ok joined ∧ joined ⊆ next := by
  have hscope : ∀ scope ∈ scopes, ∃ here kept, items scope = .ok here ∧
      keepTrue condition (here.map fun item => (name, item) :: scope) = .ok kept ∧
        kept ⊆ next := by
    clear hfewer
    induction scopes generalizing next with
    | nil => simp
    | cons scope scopes ih =>
        obtain ⟨here, kept, others, hhere, hkept, hothers, rfl⟩ := joinScopes_cons_eq_ok h
        refine List.forall_mem_cons.mpr ⟨⟨here, kept, hhere, hkept, by simp⟩, ?_⟩
        intro other hother
        obtain ⟨here, kept, hhere, hkept, hsubset⟩ := ih hothers other hother
        exact ⟨here, kept, hhere, hkept, List.subset_append_of_subset_right _ hsubset⟩
  induction fewer with
  | nil => exact ⟨[], rfl, List.nil_subset _⟩
  | cons scope fewer ih =>
      obtain ⟨hhead, htail⟩ := List.cons_subset.mp hfewer
      obtain ⟨here, kept, hhere, hkept, hsubset⟩ := hscope scope hhead
      obtain ⟨joined, hjoined, hrest⟩ := ih htail
      refine ⟨kept ++ joined, ?_, List.append_subset.mpr ⟨hsubset, hrest⟩⟩
      rw [joinScopes, hhere, ok_bind, hkept, ok_bind, hjoined]
      rfl

end

namespace Hql

variable {env : Environment} {outer : Scope}

/-! ## Joins -/

private theorem true_eval : (Node.constant (.boolean true)).eval env = always := by
  funext scope
  rw [Node.eval]
  · rfl
  · intro entity h
    cases h

/-- The join that takes every item. -/
def Join.unconditional (join : Join) : Join :=
  { join with on := .constant (.boolean true) }

/-- The items that a join finds in a scope. -/
def Join.items (env : Environment) (join : Join) (scope : Scope) : Outcome (List Value) :=
  join.source.eval env scope >>= sourceItems

private theorem runJoins_cons (join : Join) (joins : List Join) (scopes : List Scope) :
    runJoins env (join :: joins) scopes =
      joinScopes join.name (join.items env) (join.on.eval env) scopes >>= runJoins env joins := by
  obtain ⟨source, name, on⟩ := join
  rw [runJoins]
  rfl

private theorem runJoins_unconditional_cons (join : Join) (joins : List Join)
    (scopes : List Scope) :
    runJoins env ((join :: joins).map Join.unconditional) scopes =
      joinScopes join.name (join.items env) always scopes >>=
        runJoins env (joins.map Join.unconditional) := by
  rw [List.map_cons, runJoins_cons, show (Join.unconditional join).on.eval env = always from
    true_eval]
  rfl

variable {joins : List Join} {scopes all : List Scope}

/-- What joins make of scopes has their names in front of one of the scopes. -/
theorem exists_of_mem_runJoins (h : runJoins env joins scopes = .ok all) {full : Scope}
    (hfull : full ∈ all) :
    ∃ scope ∈ scopes, ∃ front : Scope, full = front ++ scope ∧
      ∀ name ∈ front.names, ∃ join ∈ joins, name = join.name := by
  induction joins generalizing scopes with
  | nil =>
      rw [runJoins] at h
      obtain rfl := Except.ok.inj h
      exact ⟨full, hfull, [], rfl, by simp [Scope.names]⟩
  | cons join joins ih =>
      rw [runJoins_cons] at h
      obtain ⟨next, hnext, h⟩ := bind_eq_ok.mp h
      obtain ⟨joined, hjoined, front, rfl, hfront⟩ := ih h
      obtain ⟨scope, hscope, -, item, -, -, rfl⟩ := exists_of_mem_joinScopes hnext hjoined
      refine ⟨scope, hscope, front ++ [(join.name, item)], by simp, ?_⟩
      intro name hname
      rw [Scope.names, List.map_append, List.mem_append] at hname
      rcases hname with hname | hname
      · obtain ⟨other, hother, heq⟩ := hfront name hname
        exact ⟨other, List.mem_cons_of_mem _ hother, heq⟩
      · exact ⟨join, List.mem_cons_self, List.mem_singleton.mp hname⟩

private theorem runJoins_of_subset (h : runJoins env joins scopes = .ok all) {fewer : List Scope}
    (hfewer : fewer ⊆ scopes) :
    ∃ joined, runJoins env joins fewer = .ok joined ∧ joined ⊆ all := by
  induction joins generalizing scopes fewer with
  | nil =>
      rw [runJoins] at h
      obtain rfl := Except.ok.inj h
      exact ⟨fewer, by rw [runJoins], hfewer⟩
  | cons join joins ih =>
      rw [runJoins_cons] at h
      obtain ⟨next, hnext, h⟩ := bind_eq_ok.mp h
      obtain ⟨joined, hjoined, hsubset⟩ := joinScopes_of_subset hnext hfewer
      rw [runJoins_cons, hjoined]
      exact ih h hsubset

/-- A condition that uses no names of later joins has the same value before and after them. -/
theorem eval_eq_of_mem_runJoins {scope full : Scope}
    (h : runJoins env joins [scope] = .ok all) (hfull : full ∈ all) {test : Node}
    (htest : ∀ join ∈ joins, join.name ∉ test.freeNames) :
    test.eval env full = test.eval env scope := by
  obtain ⟨scope', hscope', front, rfl, hfront⟩ := exists_of_mem_runJoins h hfull
  obtain rfl := List.mem_singleton.mp hscope'
  refine test.eval_eq (.of_extension fun name hname => ?_)
  obtain ⟨join, hjoin, rfl⟩ := hfront name hname
  exact htest join hjoin

/-- Where a condition fails before joins that have a value for it in all that they make, they
make nothing of that scope. -/
theorem runJoins_eq_nil_of_eval_eq_error {scope : Scope} {test : Node} {error : EvalError}
    (h : runJoins env joins scopes = .ok all) (hscope : scope ∈ scopes)
    (htest : ∀ join ∈ joins, join.name ∉ test.freeNames)
    (herror : test.eval env scope = .error error)
    (hvalues : ∀ full ∈ all, ∃ v, test.eval env full = .ok v) :
    runJoins env joins [scope] = .ok [] := by
  obtain ⟨extended, hextended, hsubset⟩ :=
    runJoins_of_subset h (List.cons_subset.mpr ⟨hscope, List.nil_subset _⟩)
  obtain rfl : extended = [] := by
    refine List.eq_nil_iff_forall_not_mem.mpr fun full hfull => ?_
    obtain ⟨v, hv⟩ := hvalues full (hsubset hfull)
    rw [eval_eq_of_mem_runJoins hextended hfull htest, herror] at hv
    cases hv
  exact hextended

/-- All conditions are true in a scope. -/
def meetsAll (env : Environment) (conditions : List Node) (scope : Scope) : Bool :=
  conditions.all fun condition => meets (condition.eval env) scope

private theorem meetsAll_singleton (condition : Node) :
    meetsAll env [condition] = meets (condition.eval env) := by
  funext scope
  rw [meetsAll, List.all_cons, List.all_nil, Bool.and_true]

private theorem meetsAll_append (conditions others : List Node) (scope : Scope) :
    meetsAll env (conditions ++ others) scope =
      (meetsAll env conditions scope && meetsAll env others scope) :=
  List.all_append

private theorem filter_meetsAll_append (conditions others : List Node) (scopes : List Scope) :
    (scopes.filter (meetsAll env conditions)).filter (meetsAll env others) =
      scopes.filter (meetsAll env (conditions ++ others)) := by
  rw [List.filter_filter]
  refine List.filter_congr fun scope _ => ?_
  rw [meetsAll_append, Bool.and_comm]

/-- A name that no condition uses may be bound. -/
theorem meetsAll_cons {conditions : List Node} {name : String}
    (h : ∀ condition ∈ conditions, name ∉ condition.freeNames) (scope : Scope) (item : Value) :
    meetsAll env conditions ((name, item) :: scope) = meetsAll env conditions scope := by
  rw [meetsAll, meetsAll, Bool.eq_iff_iff, List.all_eq_true, List.all_eq_true]
  refine forall₂_congr fun condition hcondition => ?_
  have heval : condition.eval env ([(name, item)] ++ scope) = condition.eval env scope :=
    condition.eval_eq (.of_extension fun other hother => by
      rw [List.mem_singleton.mp hother]
      exact h condition hcondition)
  unfold meets
  rw [← heval]
  rfl

/-- The condition of a join fails in a scope with an item, and the later joins make nothing of
that, even without their conditions. -/
def FailsUnextended (env : Environment) (joins : List Join) (scopes : List Scope)
    (error : EvalError) : Prop :=
  ∃ before join after reached scope items item,
    joins = before ++ join :: after ∧ runJoins env before scopes = .ok reached ∧
    scope ∈ reached ∧ join.items env scope = .ok items ∧ item ∈ items ∧
    join.on.eval env ((join.name, item) :: scope) = .error error ∧
    runJoins env (after.map Join.unconditional) [(join.name, item) :: scope] = .ok []

/-- Where joins succeed, no condition fails. -/
theorem not_failsUnextended (h : runJoins env joins scopes = .ok all) (error : EvalError) :
    ¬FailsUnextended env joins scopes error := by
  rintro ⟨before, join, after, reached, scope, items, item, rfl, hreached, hscope, hitems, hitem,
    herror, -⟩
  induction before generalizing scopes with
  | nil =>
      rw [runJoins] at hreached
      obtain rfl := Except.ok.inj hreached
      rw [List.nil_append, runJoins_cons] at h
      obtain ⟨next, hnext, -⟩ := bind_eq_ok.mp h
      -- the join succeeds for this scope on its own
      obtain ⟨joined, hjoined, -⟩ :=
        joinScopes_of_subset hnext (List.cons_subset.mpr ⟨hscope, List.nil_subset _⟩)
      obtain ⟨here, kept, others, hhere, hkept, -⟩ := joinScopes_cons_eq_ok hjoined
      obtain rfl := Except.ok.inj (hitems.symm.trans hhere)
      obtain ⟨v, hv⟩ := (keepTrue_eq_ok_iff.mp hkept).1 _ (List.mem_map_of_mem hitem)
      rw [herror] at hv
      cases hv
  | cons first before ih =>
      rw [runJoins_cons] at hreached
      obtain ⟨next, hnext, hreached⟩ := bind_eq_ok.mp hreached
      rw [List.cons_append, runJoins_cons, hnext, ok_bind] at h
      exact ih h hreached

/-- Joins with and without their conditions. If all scopes that the joins make without their
conditions have a value for each of these, then the joins with them make those in which all are
true, unless one of them fails in a scope that is not extended. The induction is on the joins;
the conditions of the joins before them have been met. -/
theorem runJoins_early {before : List Node}
    (hlate : runJoins env (joins.map Join.unconditional) scopes = .ok all)
    (hbefore : ∀ test ∈ before, ∀ join ∈ joins, join.name ∉ test.freeNames)
    (hfree : joins.Pairwise fun earlier later => later.name ∉ earlier.on.freeNames)
    (hvalues : ∀ join ∈ joins, ∀ full ∈ all, ∃ v, join.on.eval env full = .ok v) :
    runJoins env joins (scopes.filter (meetsAll env before)) =
        .ok (all.filter (meetsAll env (before ++ joins.map Join.on))) ∨
      ∃ error, runJoins env joins (scopes.filter (meetsAll env before)) = .error error ∧
        FailsUnextended env joins (scopes.filter (meetsAll env before)) error := by
  induction joins generalizing before scopes with
  | nil =>
      rw [List.map_nil, runJoins] at hlate
      obtain rfl := Except.ok.inj hlate
      rw [List.map_nil, List.append_nil, runJoins]
      exact .inl rfl
  | cons join joins ih =>
      obtain ⟨hvalue, hvalues⟩ := List.forall_mem_cons.mp hvalues
      obtain ⟨hon, hfree⟩ := List.pairwise_cons.mp hfree
      rw [runJoins_unconditional_cons] at hlate
      obtain ⟨next, hnext, hlate⟩ := bind_eq_ok.mp hlate
      have hkeep : ∀ (scope : Scope) (item : Value),
          meetsAll env before ((join.name, item) :: scope) = meetsAll env before scope :=
        meetsAll_cons fun test htest => hbefore test htest join List.mem_cons_self
      have hmet := joinScopes_filter hkeep hnext
      rw [runJoins_cons, joinScopes_eq_keepTrue hmet]
      cases hkept : keepTrue (join.on.eval env) (next.filter (meetsAll env before)) with
      | ok kept =>
          -- the scopes that are kept are those in which one more condition is met
          obtain ⟨-, rfl⟩ := keepTrue_eq_ok_iff.mp hkept
          rw [← meetsAll_singleton, filter_meetsAll_append] at hkept ⊢
          rw [ok_bind, List.map_cons, List.append_cons before join.on (joins.map Join.on)]
          have hbefore' : ∀ test ∈ before ++ [join.on], ∀ later ∈ joins,
              later.name ∉ test.freeNames := by
            intro test htest later hlater
            rcases List.mem_append.mp htest with htest | htest
            · exact hbefore test htest later (List.mem_cons_of_mem _ hlater)
            · rw [List.mem_singleton.mp htest]
              exact hon later hlater
          rcases ih hlate hbefore' hfree hvalues with h | ⟨error, h, hfails⟩
          · exact .inl h
          · obtain ⟨first, other, after, reached, scope, items, item, rfl, hreached, hrest⟩ := hfails
            refine .inr ⟨error, h, join :: first, other, after, reached, scope, items, item, rfl,
              ?_, hrest⟩
            rw [runJoins_cons, joinScopes_eq_keepTrue hmet, hkept]
            exact hreached
      | error error =>
          obtain ⟨joined, hjoined, herror⟩ := exists_of_keepTrue_eq_error hkept
          obtain ⟨scope, hscope, items, item, hitems, hitem, rfl⟩ :=
            exists_of_mem_joinScopes hmet hjoined
          have hlater : ∀ later ∈ joins.map Join.unconditional,
              later.name ∉ join.on.freeNames := by
            intro later hlater
            obtain ⟨other, hother, rfl⟩ := List.mem_map.mp hlater
            exact hon other hother
          refine .inr ⟨error, rfl, [], join, joins, _, scope, items, item, rfl, ?_, hscope, hitems,
            hitem, herror, runJoins_eq_nil_of_eval_eq_error hlate (List.mem_filter.mp hjoined).1
              hlater herror hvalue⟩
          rw [runJoins]

/-! ## Conjunctions -/

/-- A node is the conjunction of conditions in order, however it is bracketed. -/
inductive Node.IsConjunction : Node → List Node → Prop
  | nil : IsConjunction (.constant (.boolean true)) []
  | single (condition : Node) : IsConjunction condition [condition]
  | and {left right : Node} {conditions others : List Node} (hleft : IsConjunction left conditions)
    (hright : IsConjunction right others) :
    IsConjunction (.binary .and left right) (conditions ++ others)

/-- A filter asks for conditions in order. It may be absent if there are no conditions. -/
inductive Conjoins : Option Node → List Node → Prop
  | none : Conjoins none []
  | some {filter : Node} {conditions : List Node} (h : filter.IsConjunction conditions) :
    Conjoins (some filter) conditions

/-- Where a conjunction has a value, all conditions have one, and it is true exactly if they are.
The induction is on the brackets. -/
theorem Node.IsConjunction.eval {filter : Node} {conditions : List Node}
    (h : filter.IsConjunction conditions) {scope : Scope} {v : Value}
    (hv : filter.eval env scope = .ok v) :
    (∀ condition ∈ conditions, ∃ w, condition.eval env scope = .ok w) ∧
      v.isTrue = meetsAll env conditions scope := by
  induction h generalizing v with
  | nil =>
      rw [true_eval] at hv
      obtain rfl := Except.ok.inj hv
      exact ⟨List.forall_mem_nil _, rfl⟩
  | single condition =>
      refine ⟨List.forall_mem_singleton.mpr ⟨v, hv⟩, ?_⟩
      rw [meetsAll_singleton, meets_of_eq_ok hv]
  | and _ _ ihLeft ihRight =>
      rw [Node.eval] at hv
      obtain ⟨a, ha, hv⟩ := bind_eq_ok.mp hv
      obtain ⟨b, hb, hv⟩ := bind_eq_ok.mp hv
      obtain ⟨hleft, hmeetsLeft⟩ := ihLeft ha
      obtain ⟨hright, hmeetsRight⟩ := ihRight hb
      refine ⟨List.forall_mem_append.mpr ⟨hleft, hright⟩, ?_⟩
      rw [Value.isTrue_and hv, hmeetsLeft, hmeetsRight, meetsAll_append]

/-- A filter that asks for all conditions finds a value for each of them in all scopes, and
keeps those in which all are true. -/
theorem Conjoins.runFilter {filter : Option Node} {conditions : List Node}
    (h : Conjoins filter conditions) {scopes kept : List Scope}
    (hkept : runFilter env filter scopes = .ok kept) :
    (∀ condition ∈ conditions, ∀ scope ∈ scopes, ∃ v, condition.eval env scope = .ok v) ∧
      kept = scopes.filter (meetsAll env conditions) := by
  cases h with
  | none =>
      rw [Hql.runFilter] at hkept
      obtain rfl := Except.ok.inj hkept
      exact ⟨List.forall_mem_nil _, (List.filter_eq_self.mpr fun _ _ => rfl).symm⟩
  | some h =>
      rw [Hql.runFilter] at hkept
      obtain ⟨hvalues, rfl⟩ := keepTrue_eq_ok_iff.mp hkept
      refine ⟨fun condition hcondition scope hscope => ?_, List.filter_congr fun scope hscope => ?_⟩
      · obtain ⟨v, hv⟩ := hvalues scope hscope
        exact (h.eval hv).1 condition hcondition
      · obtain ⟨v, hv⟩ := hvalues scope hscope
        rw [meets_of_eq_ok hv, (h.eval hv).2]

/-- A filter that has a value in all scopes keeps those in which it is true. -/
theorem runFilter_eq_ok {filter : Option Node} {scopes : List Scope}
    (h : ∀ condition ∈ filter.toList, ∀ scope ∈ scopes, ∃ v, condition.eval env scope = .ok v) :
    runFilter env filter scopes = .ok (scopes.filter (meetsAll env filter.toList)) := by
  cases filter with
  | none =>
      rw [runFilter]
      exact congrArg Except.ok (List.filter_eq_self.mpr fun _ _ => rfl).symm
  | some condition =>
      rw [runFilter, Option.toList_some, meetsAll_singleton]
      exact keepTrue_eq_ok_iff.mpr ⟨h condition List.mem_cons_self, rfl⟩

/-! ## Queries -/

namespace Query

variable {q late : Query}

/-- The second query is the first one with the conditions of its joins in its filter instead. -/
structure FiltersLate (q late : Query) : Prop where
  filter : Conjoins late.filter (q.joins.map Join.on ++ q.filter.toList)
  rest : late = { q with joins := q.joins.map Join.unconditional, filter := late.filter }

/-- The scopes that the source of a query makes. -/
def sourceScopes (env : Environment) (q : Query) (outer : Scope) : Outcome (List Scope) := do
  let items ← q.source.eval env outer >>= sourceItems
  return items.map fun item => (q.name, item) :: outer

/-- The condition of a join of the query fails in a scope that the joins before it have made
and an item of its own, and the later joins make nothing of that, even without their
conditions. -/
def FailsUnextended (env : Environment) (q : Query) (outer : Scope) (error : EvalError) : Prop :=
  ∃ scopes, q.sourceScopes env outer = .ok scopes ∧ Hql.FailsUnextended env q.joins scopes error

private theorem run_eq_sourceScopes (q : Query) (outer : Scope) :
    q.run env outer =
      q.sourceScopes env outer >>= fun scopes =>
        (runJoins env q.joins scopes >>= fun scopes =>
          runFilter env q.filter scopes >>= q.rowsOf env) >>= q.finish env outer := by
  have hselected : ∀ items, q.selected env outer items =
      runJoins env q.joins (items.map fun item => (q.name, item) :: outer) >>= fun scopes =>
        runFilter env q.filter scopes >>= q.rowsOf env := fun _ => rfl
  rw [run_eq, sourceScopes]
  simp only [hselected, bind_assoc, pure_bind]

/-- A query whose filter comes late and has a result has the same result with the conditions of
its joins in place, if these use no names of later joins and none of them fails in a scope of
which the later joins make nothing. If one does, the query fails with the error of such a
condition. -/
theorem run_of_filtersLate (hlate : q.FiltersLate late)
    (hfree : q.joins.Pairwise fun earlier later => later.name ∉ earlier.on.freeNames) {v : Value}
    (h : late.run env outer = .ok v) :
    (q.run env outer = .ok v ∧ ∀ error, ¬q.FailsUnextended env outer error) ∨
      ∃ error, q.run env outer = .error error ∧ q.FailsUnextended env outer error := by
  obtain ⟨hfilter, hrest⟩ := hlate
  generalize late.filter = filter at hfilter hrest
  subst hrest
  rw [run_eq_sourceScopes] at h
  obtain ⟨scopes, hscopes, h⟩ := bind_eq_ok.mp h
  obtain ⟨rows, hrows, hfinish⟩ := bind_eq_ok.mp h
  obtain ⟨all, hall, hrows⟩ := bind_eq_ok.mp hrows
  obtain ⟨kept, hkept, hrows⟩ := bind_eq_ok.mp hrows
  obtain ⟨hvalues, rfl⟩ := hfilter.runFilter hkept
  obtain ⟨hon, hwhere⟩ := List.forall_mem_append.mp hvalues
  have hbefore : ∀ test ∈ ([] : List Node), ∀ join ∈ q.joins, join.name ∉ test.freeNames :=
    List.forall_mem_nil _
  have hearly := runJoins_early hall hbefore hfree
    fun join hjoin => hon join.on (List.mem_map_of_mem hjoin)
  have hnothing : scopes.filter (meetsAll env []) = scopes :=
    List.filter_eq_self.mpr fun _ _ => rfl
  rw [hnothing, List.nil_append] at hearly
  have hsource : q.sourceScopes env outer = .ok scopes := hscopes
  rw [run_eq_sourceScopes, hsource, ok_bind]
  rcases hearly with hjoined | ⟨error, herror, hfails⟩
  · have hwhere' : ∀ condition ∈ q.filter.toList,
        ∀ scope ∈ all.filter (meetsAll env (q.joins.map Join.on)),
          ∃ v, condition.eval env scope = .ok v := fun condition hcondition scope hscope =>
      hwhere condition hcondition scope (List.mem_filter.mp hscope).1
    refine .inl ⟨?_, ?_⟩
    · rw [hjoined, ok_bind, runFilter_eq_ok hwhere', ok_bind, filter_meetsAll_append]
      exact bind_eq_ok.mpr ⟨rows, hrows, hfinish⟩
    · rintro error ⟨others, hothers, hfails⟩
      obtain rfl := Except.ok.inj (hsource.symm.trans hothers)
      exact not_failsUnextended hjoined error hfails
  · refine .inr ⟨error, ?_, scopes, hsource, hfails⟩
    rw [herror]
    rfl

/-- The parcel and the order together weigh more than two. -/
def weighsEnough : Node :=
  .binary .greaterThan
    (.binary .add (.dot (.ident "o") "Weight") (.dot (.ident "p") "Weight"))
    (.constant (.integer 2))

/-- The label is for the parcel. -/
def labelFits : Node :=
  .binary .equal (.dot (.ident "l") "Parcel") (.dot (.ident "p") "Id")

/-- The parcel has a number. -/
def isNumbered : Node :=
  .isNotNull (.dot (.ident "p") "Id")

/-- The numbered parcels with a label that weigh enough together with an order. -/
def labelledParcels : Query :=
  { Query.ofSource (.entity "Order") "o" with
    joins := [⟨.entity "Parcel", "p", weighsEnough⟩, ⟨.entity "Label", "l", labelFits⟩]
    filter := some isNumbered
    select := some (.dot (.ident "p") "Id") }

/-- The same with a filter at the end. -/
def labelledParcelsLate : Query :=
  { labelledParcels with
    joins := labelledParcels.joins.map Join.unconditional
    filter := some (.binary .and (.binary .and weighsEnough labelFits) isNumbered) }

private theorem labelledParcels_filtersLate : labelledParcels.FiltersLate labelledParcelsLate := by
  have hconjunction : Conjoins
      (some (.binary .and (.binary .and weighsEnough labelFits) isNumbered))
      [weighsEnough, labelFits, isNumbered] :=
    .some (.and (.and (.single weighsEnough) (.single labelFits)) (.single isNumbered))
  exact ⟨hconjunction, rfl⟩

private theorem labelledParcels_joins_free :
    labelledParcels.joins.Pairwise fun earlier later => later.name ∉ earlier.on.freeNames := by
  decide

/-- An order, two parcels and their labels. -/
def labels : Environment :=
  ⟨⟨[("Order", [[("Weight", .integer 1)]]),
    ("Parcel", [[("Id", .integer 1), ("Weight", .integer 1)],
      [("Id", .integer 2), ("Weight", .integer 5)]]),
    ("Label", [[("Parcel", .integer 2)], [("Parcel", .integer 1)]])]⟩, []⟩

/-- An order of the largest weight and a parcel that has no label. -/
def noLabels : Environment :=
  ⟨⟨[("Order", [[("Weight", .integer 9223372036854775807)]]),
    ("Parcel", [[("Id", .integer 1), ("Weight", .integer 1)]]), ("Label", [])]⟩, []⟩

/-- The sum of the weights is too large. -/
def weightOverflow : EvalError :=
  .overflow (.arithmetic .add 9223372036854775807 1)

/-- Without labels there is nothing to filter in the end, but the first join has added the
weights by then. -/
theorem labelledParcels_execute_ne :
    labelledParcels.FiltersLate labelledParcelsLate ∧
      (labelledParcels.joins.Pairwise fun earlier later =>
        later.name ∉ earlier.on.freeNames) ∧
      labelledParcelsLate.execute noLabels = .ok (.list []) ∧
      labelledParcels.execute noLabels = .error weightOverflow := by
  refine ⟨labelledParcels_filtersLate, labelledParcels_joins_free, ?_, ?_⟩
  · rw [execute, run_eq]
    simp only [selected, labelledParcelsLate, labelledParcels, Query.ofSource, sortScopes_nil]
    rfl
  · rw [execute, run_eq]
    simp only [selected, labelledParcels, Query.ofSource, sortScopes_nil]
    rfl

/-- With labels the conditions may stand in either place. Without them, the first condition
fails where there is nothing to join. -/
theorem labelledParcels_run :
    labelledParcels.run labels [] = .ok (.list [.integer 2]) ∧
      labelledParcels.FailsUnextended noLabels [] weightOverflow := by
  have hlabels : labelledParcelsLate.run labels [] = .ok (.list [.integer 2]) ∧
      ∃ w, labelledParcels.run labels [] = .ok w := by
    rw [run_eq, run_eq]
    simp only [selected, labelledParcelsLate, labelledParcels, Query.ofSource, sortScopes_nil]
    exact ⟨rfl, _, rfl⟩
  have hnoLabels : labelledParcelsLate.run noLabels [] = .ok (.list []) ∧
      labelledParcels.run noLabels [] = .error weightOverflow := by
    rw [run_eq, run_eq]
    simp only [selected, labelledParcelsLate, labelledParcels, Query.ofSource, sortScopes_nil]
    exact ⟨rfl, rfl⟩
  constructor
  · obtain ⟨hlate, w, hw⟩ := hlabels
    rcases run_of_filtersLate labelledParcels_filtersLate labelledParcels_joins_free hlate with
      ⟨hrun, -⟩ | ⟨error, herror, -⟩
    · exact hrun
    · rw [hw] at herror
      cases herror
  · obtain ⟨hlate, hfails⟩ := hnoLabels
    rcases run_of_filtersLate labelledParcels_filtersLate labelledParcels_joins_free hlate with
      ⟨hrun, -⟩ | ⟨error, herror, hunextended⟩
    · rw [hfails] at hrun
      cases hrun
    · obtain rfl := Except.error.inj (hfails.symm.trans herror)
      exact hunextended

end Query

end Hql

end ObjectQuery
