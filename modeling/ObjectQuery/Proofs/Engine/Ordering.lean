import ObjectQuery.Proofs.Lowering.Existence
import ObjectQuery.Proofs.Value.SortCompare

/-!
# The order of rows

A query may order its rows by several items, each ascending or descending.
The keys of an item are null or of one kind. Of such keys the comparison is an
order: null is before everything else, no two keys are tied unless they are the
same, and of two rows the first keys that differ decide. A descending item
exchanges the sides of its comparison, and so it has null at the end and leaves
ties as they are.

Sorting by an order loses no row, and rows with the same keys stay in the order
they were in.

## Main definitions

* `Value.IsKey` — null, or of a kind.
* `Value.InOrder` — a row of keys may stand before another one.
* `IsOrdered` — scopes in the order of their keys.

## Main results

* `Value.compareKeys_isLE_iff`, `Value.compareKeys_eq_eq_iff` — the comparison
  of two rows of keys.
* `Hql.Query.run_ordered` — a query selects its rows in order.
-/

namespace ObjectQuery

namespace Value

/-! ## Keys -/

/-- A key of an item whose keys are of a kind. -/
inductive IsKey : Kind → Value → Prop
  | null (kind : Kind) : IsKey kind .null
  | integer (n : Int64) : IsKey .integer (.integer n)
  | string (s : String) : IsKey .string (.string s)
  | boolean (b : Bool) : IsKey .boolean (.boolean b)

/-- The order of keys of one kind. -/
inductive Before : Value → Value → Prop
  | null {v : Value} (h : v.isNull = false) : Before .null v
  | integer {m n : Int64} (h : m < n) : Before (.integer m) (.integer n)
  | string {s t : String} (h : s < t) : Before (.string s) (.string t)
  | boolean : Before (.boolean false) (.boolean true)

/-- The order of keys in a direction. -/
def Precedes : Direction → Value → Value → Prop
  | .ascending, a, b => Before a b
  | .descending, a, b => Before b a

/-- Of two rows of keys the first may stand before the second: where they first
differ, its key precedes. -/
inductive InOrder : List Direction → List Value → List Value → Prop
  | nil : InOrder [] [] []
  | precedes {direction : Direction} {directions : List Direction} {a b : Value}
      {as bs : List Value} (h : Precedes direction a b) :
      InOrder (direction :: directions) (a :: as) (b :: bs)
  | same {direction : Direction} {directions : List Direction} {a : Value} {as bs : List Value}
      (h : InOrder directions as bs) : InOrder (direction :: directions) (a :: as) (a :: bs)

variable {kind : Kind} {direction : Direction} {a b c : Value}

theorem Before.trans (hab : Before a b) (hbc : Before b c) : Before a c := by
  cases hab with
  | null hb =>
      apply Before.null
      cases hbc with
      | null => cases hb
      | integer | string | boolean => rfl
  | integer hmn =>
      cases hbc with
      | integer hnk => exact .integer (Int64.lt_trans hmn hnk)
  | string hst =>
      cases hbc with
      | string htu => exact .string (String.lt_trans hst htu)
  | boolean => cases hbc

theorem Precedes.trans (hab : Precedes direction a b) (hbc : Precedes direction b c) :
    Precedes direction a c := by
  cases direction with
  | ascending => exact Before.trans hab hbc
  | descending => exact Before.trans hbc hab

private theorem sortCompare_eq_lt_iff (ha : IsKey kind a) (hb : IsKey kind b) :
    a.sortCompare b = .lt ↔ Before a b := by
  constructor
  · intro h
    cases ha with
    | null =>
        cases hb with
        | null => cases h
        | integer | string | boolean => exact .null rfl
    | integer m =>
        cases hb with
        | null => cases h
        | integer n => exact .integer (Std.compare_eq_lt.mp h)
    | string s =>
        cases hb with
        | null => cases h
        | string t => exact .string (compareOfLessAndEq_eq_lt.mp h)
    | boolean x =>
        cases hb with
        | null => cases h
        | boolean y => cases x <;> cases y <;> first | exact .boolean | cases h
  · rintro (hb | h | h | _)
    · cases b <;> first | rfl | cases hb
    · exact Std.compare_eq_lt.mpr h
    · exact compareOfLessAndEq_eq_lt.mpr h
    · rfl

/-- Keys of one kind are tied only if they are the same. -/
theorem sortCompare_eq_eq_iff (ha : IsKey kind a) (hb : IsKey kind b) :
    a.sortCompare b = .eq ↔ a = b := by
  constructor
  · intro h
    cases ha with
    | null =>
        cases hb with
        | null => rfl
        | integer | string | boolean => cases h
    | integer m =>
        cases hb with
        | null => cases h
        | integer n => exact congrArg Value.integer (Std.compare_eq_iff_eq.mp h)
    | string s =>
        cases hb with
        | null => cases h
        | string t => exact congrArg Value.string (Std.compare_eq_iff_eq.mp h)
    | boolean x =>
        cases hb with
        | null => cases h
        | boolean y => exact congrArg Value.boolean (Std.compare_eq_iff_eq.mp h)
  · rintro rfl
    cases ha <;> first | rfl | exact Std.compare_eq_iff_eq.mpr rfl

theorem directedCompare_swap (direction : Direction) (a b : Value) :
    directedCompare direction b a = (directedCompare direction a b).swap := by
  cases direction with
  | ascending => exact sortCompare_swap a b
  | descending => exact sortCompare_swap b a

theorem directedCompare_eq_lt_iff (direction : Direction) (ha : IsKey kind a) (hb : IsKey kind b) :
    directedCompare direction a b = .lt ↔ Precedes direction a b := by
  cases direction with
  | ascending => exact sortCompare_eq_lt_iff ha hb
  | descending => exact sortCompare_eq_lt_iff hb ha

theorem directedCompare_eq_eq_iff (direction : Direction) (ha : IsKey kind a) (hb : IsKey kind b) :
    directedCompare direction a b = .eq ↔ a = b := by
  cases direction with
  | ascending => exact sortCompare_eq_eq_iff ha hb
  | descending => exact (sortCompare_eq_eq_iff hb ha).trans eq_comm

/-! ## Rows of keys -/

variable {kinds : List Kind} {directions : List Direction} {as bs cs : List Value}

theorem InOrder.trans (hab : InOrder directions as bs) (hbc : InOrder directions bs cs) :
    InOrder directions as cs := by
  induction hab generalizing cs with
  | nil => exact hbc
  | precedes hab =>
      cases hbc with
      | precedes hbc => exact .precedes (hab.trans hbc)
      | same => exact .precedes hab
  | same _ ih =>
      cases hbc with
      | precedes hbc => exact .precedes hbc
      | same hbc => exact .same (ih hbc)

/-- Exchanging two rows of keys turns their comparison round. -/
theorem compareKeys_swap (directions : List Direction) (as bs : List Value) :
    compareKeys directions bs as = (compareKeys directions as bs).swap := by
  induction directions generalizing as bs with
  | nil => rfl
  | cons direction directions ih =>
      cases as with
      | nil => cases bs <;> rfl
      | cons a as =>
          cases bs with
          | nil => rfl
          | cons b bs =>
              rw [compareKeys, compareKeys, directedCompare_swap direction a b]
              cases directedCompare direction a b with
              | lt => rfl
              | eq => exact ih as bs
              | gt => rfl

/-- Rows of keys are tied only if they are the same. -/
theorem compareKeys_eq_eq_iff (hlength : directions.length = kinds.length)
    (has : List.Forall₂ IsKey kinds as) (hbs : List.Forall₂ IsKey kinds bs) :
    compareKeys directions as bs = .eq ↔ as = bs := by
  induction has generalizing directions bs with
  | nil =>
      cases hbs
      obtain rfl := List.eq_nil_of_length_eq_zero hlength
      exact iff_of_true rfl rfl
  | cons ha _ ih =>
      obtain ⟨direction, directions, rfl⟩ := List.exists_cons_of_length_eq_add_one hlength
      cases hbs with
      | cons hb hbs =>
          rw [List.cons.injEq, ← directedCompare_eq_eq_iff direction ha hb,
            ← ih (Nat.succ.inj hlength) hbs, compareKeys]
          cases directedCompare direction _ _ with
          | lt => simp
          | eq => simp
          | gt => simp

/-- The first of two rows of keys is not after the second exactly if it may stand before it. -/
theorem compareKeys_isLE_iff (hlength : directions.length = kinds.length)
    (has : List.Forall₂ IsKey kinds as) (hbs : List.Forall₂ IsKey kinds bs) :
    (compareKeys directions as bs).isLE = true ↔ InOrder directions as bs := by
  induction has generalizing directions bs with
  | nil =>
      cases hbs
      obtain rfl := List.eq_nil_of_length_eq_zero hlength
      exact iff_of_true rfl .nil
  | @cons kind a kinds as ha _ ih =>
      obtain ⟨direction, directions, rfl⟩ := List.exists_cons_of_length_eq_add_one hlength
      cases hbs with
      | @cons _ b _ bs hb hbs =>
          have hlt := directedCompare_eq_lt_iff direction ha hb
          have heq := directedCompare_eq_eq_iff direction ha hb
          have hrest := ih (Nat.succ.inj hlength) hbs
          rw [compareKeys]
          cases hcompare : directedCompare direction a b with
          | lt => exact iff_of_true rfl (.precedes (hlt.mp hcompare))
          | eq =>
              obtain rfl := heq.mp hcompare
              refine hrest.trans ⟨.same, ?_⟩
              rintro (_ | h | h)
              · rw [hlt.mpr h] at hcompare
                cases hcompare
              · exact h
          | gt =>
              refine iff_of_false Bool.false_ne_true ?_
              rintro (_ | h | h)
              · rw [hlt.mpr h] at hcompare
                cases hcompare
              · rw [heq.mpr rfl] at hcompare
                cases hcompare

theorem compareKeys_isLE_trans (hlength : directions.length = kinds.length)
    (has : List.Forall₂ IsKey kinds as) (hbs : List.Forall₂ IsKey kinds bs)
    (hcs : List.Forall₂ IsKey kinds cs) (hab : (compareKeys directions as bs).isLE = true)
    (hbc : (compareKeys directions bs cs).isLE = true) :
    (compareKeys directions as cs).isLE = true := by
  rw [compareKeys_isLE_iff hlength has hbs] at hab
  rw [compareKeys_isLE_iff hlength hbs hcs] at hbc
  exact (compareKeys_isLE_iff hlength has hcs).mpr (hab.trans hbc)

theorem compareKeys_isLE_total (directions : List Direction) (as bs : List Value) :
    ((compareKeys directions as bs).isLE || (compareKeys directions bs as).isLE) = true := by
  rw [compareKeys_swap directions as bs]
  cases compareKeys directions as bs <;> rfl

end Value

/-! ## Sorting -/

/-- Sorting by a comparison that is an order of the elements of the list, though it may not be
one of everything of their type. -/
theorem mergeSort_of_forall {α : Type} {P : α → Prop} {le : α → α → Bool} {entries : List α}
    (hentries : ∀ a ∈ entries, P a)
    (htrans : ∀ a b c, P a → P b → P c → le a b = true → le b c = true → le a c = true)
    (htotal : ∀ a b, (le a b || le b a) = true) :
    ((entries.mergeSort le).Pairwise fun a b => le a b = true) ∧
      ∀ group : List α, group.Sublist entries → (group.Pairwise fun a b => le a b = true) →
        group.Sublist (entries.mergeSort le) := by
  have htrans' : ∀ a b c : { a // P a }, le a b = true → le b c = true → le a c = true :=
    fun a b c => htrans a b c a.2 b.2 c.2
  have htotal' : ∀ a b : { a // P a }, (le a b || le b a) = true :=
    fun a b => htotal a b
  let attached := entries.attachWith P hentries
  have hval : attached.map Subtype.val = entries := List.attachWith_map_subtype_val hentries
  have hsorted : (attached.mergeSort fun a b => le a b).map Subtype.val = entries.mergeSort le :=
    hval ▸ List.map_mergeSort fun _ _ _ _ => rfl
  rw [← hsorted]
  refine ⟨List.pairwise_map.mpr (List.pairwise_mergeSort htrans' htotal' attached), ?_⟩
  intro group hgroup hle
  rw [← hval] at hgroup
  obtain ⟨members, hmembers, rfl⟩ := List.sublist_map_iff.mp hgroup
  exact (List.sublist_mergeSort htrans' htotal' (List.pairwise_map.mp hle) hmembers).map _

/-- Scopes in the order of their keys, those that are tied in the order they were in. -/
structure IsOrdered (directions : List Direction) (keys : Scope → List Value)
    (scopes sorted : List Scope) : Prop where
  perm : sorted.Perm scopes
  in_order : sorted.Pairwise fun a b => Value.InOrder directions (keys a) (keys b)
  stable : ∀ group : List Scope, group.Sublist scopes →
    (group.Pairwise fun a b => Value.compareKeys directions (keys a) (keys b) = .eq) →
      group.Sublist sorted

variable {directions : List Direction} {keys : Scope → List Value} {scopes : List Scope}

/-- Where all scopes have keys, sorting them takes no notice of how the keys are found. -/
theorem sortScopes_eq {find : Scope → Outcome (List Value)}
    (hkeys : ∀ scope ∈ scopes, find scope = .ok (keys scope)) :
    sortScopes directions find scopes =
      .ok (scopes.mergeSort fun a b =>
        Value.compareKeys directions (keys a) (keys b) != .gt) := by
  have hkeyed : (scopes.mapM fun scope => do return (← find scope, scope)) =
      (Except.ok (scopes.map fun scope => (keys scope, scope)) :
        Outcome (List (List Value × Scope))) := by
    induction scopes with
    | nil => rfl
    | cons scope rest ih =>
        obtain ⟨hscope, hrest⟩ := List.forall_mem_cons.mp hkeys
        rw [List.mapM_cons, hscope, ih hrest]
        rfl
  have hsort := List.map_mergeSort (l := scopes) (f := fun scope => (keys scope, scope))
    (r := fun a b => Value.compareKeys directions (keys a) (keys b) != .gt)
    (s := fun a b => Value.compareKeys directions a.1 b.1 != .gt) fun _ _ _ _ => rfl
  rw [sortScopes, hkeyed, ok_bind, ← hsort]
  exact congrArg Except.ok ((List.map_map ..).trans (List.map_id _))

/-- Scopes whose keys are of one kind each are sorted into their order. -/
theorem isOrdered_mergeSort {kinds : List Kind} (hlength : directions.length = kinds.length)
    (hkinds : ∀ scope ∈ scopes, List.Forall₂ Value.IsKey kinds (keys scope)) :
    IsOrdered directions keys scopes (scopes.mergeSort fun a b =>
      Value.compareKeys directions (keys a) (keys b) != .gt) := by
  have hne_gt : ∀ o : Ordering, (o != .gt) = o.isLE := by decide
  simp only [hne_gt]
  obtain ⟨hpairwise, hsublist⟩ := mergeSort_of_forall hkinds
    (fun _ _ _ => Value.compareKeys_isLE_trans hlength)
    fun a b => Value.compareKeys_isLE_total directions (keys a) (keys b)
  have hperm := List.mergeSort_perm scopes fun a b =>
    (Value.compareKeys directions (keys a) (keys b)).isLE
  refine ⟨hperm, ?_, ?_⟩
  · refine hpairwise.imp_of_mem fun ha hb h => ?_
    exact (Value.compareKeys_isLE_iff hlength (hkinds _ (hperm.mem_iff.mp ha))
      (hkinds _ (hperm.mem_iff.mp hb))).mp h
  · intro group hgroup htied
    refine hsublist group hgroup (htied.imp fun h => ?_)
    rw [h]
    rfl

/-! ## Queries -/

namespace Hql

variable {env : Environment} {outer : Scope}

theorem length_evalKeys {order : List OrderKey} {scope : Scope} {ks : List Value}
    (h : evalKeys env order scope = .ok ks) : ks.length = order.length := by
  induction order generalizing ks with
  | nil =>
      rw [evalKeys] at h
      obtain rfl := Except.ok.inj h
      rfl
  | cons item rest ih =>
      obtain ⟨key, direction⟩ := item
      rw [evalKeys] at h
      obtain ⟨v, -, h⟩ := bind_eq_ok.mp h
      obtain ⟨others, hothers, h⟩ := bind_eq_ok.mp h
      obtain rfl := Except.ok.inj h
      rw [List.length_cons, List.length_cons, ih hothers]

namespace Query

/-- The scopes of a query that its filters keep, before they are ordered. -/
def filtered (env : Environment) (q : Query) (outer : Scope) (items : List Value) :
    Outcome (List Scope) := do
  let scopes ← runJoins env q.joins (items.map fun item => (q.name, item) :: outer)
  let scopes ← runFilter env q.filter scopes
  runFilter env q.having scopes

/-- What a query selects in a scope. -/
def project (env : Environment) (q : Query) (scope : Scope) : Outcome Value :=
  match q.select with
  | some node => node.eval env scope
  | none => scope.item q.name

theorem selected_eq_project (q : Query) (items : List Value) :
    q.selected env outer items =
      q.filtered env outer items >>= fun scopes =>
        sortScopes (q.order.map OrderKey.direction) (evalKeys env q.order) scopes >>=
          selectRows (q.project env) := by
  unfold filtered
  simp only [bind_assoc]
  rfl

/-- A query whose keys are null or of one kind for each item makes its rows of the scopes that
its filters keep, in the order of their keys: none is lost, null is before everything else in
an ascending item and after it in a descending one, and scopes with the same keys stay in the
order they were in. -/
theorem run_ordered {q : Query} {items : List Value} {filtered : List Scope} {kinds : List Kind}
    {keys : Scope → List Value}
    (hitems : (q.source.eval env outer >>= sourceItems) = .ok items)
    (hfiltered : q.filtered env outer items = .ok filtered)
    (hkeys : ∀ scope ∈ filtered, evalKeys env q.order scope = .ok (keys scope))
    (hkinds : ∀ scope ∈ filtered, List.Forall₂ Value.IsKey kinds (keys scope)) :
    ∃ sorted, IsOrdered (q.order.map OrderKey.direction) keys filtered sorted ∧
      q.run env outer = selectRows (q.project env) sorted >>= q.finish env outer := by
  have hrun : ∀ sorted,
      sortScopes (q.order.map OrderKey.direction) (evalKeys env q.order) filtered = .ok sorted →
        q.run env outer = selectRows (q.project env) sorted >>= q.finish env outer := by
    intro sorted hsorted
    rw [run_eq, hitems, ok_bind, selected_eq_project, hfiltered, ok_bind, hsorted, ok_bind]
  refine ⟨_, ?_, hrun _ (sortScopes_eq hkeys)⟩
  cases filtered with
  | nil =>
      rw [List.mergeSort_nil]
      exact ⟨.refl _, .nil, fun group hgroup _ => hgroup⟩
  | cons scope rest =>
      -- the keys of one scope tell that there are as many kinds as items
      have hlength : (q.order.map OrderKey.direction).length = kinds.length := by
        rw [List.length_map, ← length_evalKeys (hkeys scope (List.mem_cons_self ..)),
          (hkinds scope (List.mem_cons_self ..)).length_eq]
      exact isOrdered_mergeSort hlength hkinds

/-- Visits with a city and a number of nights, some of them unknown. -/
def visitRecords : List Record :=
  [[("Id", .integer 1), ("City", .string "Oslo"), ("Nights", .integer 2)],
    [("Id", .integer 2), ("City", .null), ("Nights", .integer 5)],
    [("Id", .integer 3), ("City", .string "Oslo"), ("Nights", .null)],
    [("Id", .integer 4), ("City", .string "Bonn"), ("Nights", .integer 2)],
    [("Id", .integer 5), ("City", .string "Oslo"), ("Nights", .integer 2)]]

/-- The environment with the visits. -/
def visits : Environment :=
  ⟨⟨[("Visit", visitRecords)]⟩, []⟩

/-- The visits by city, in each city the longest first. -/
def visitsByCity : Query :=
  { Query.ofSource (.entity "Visit") "v" with
    order := [⟨.dot (.ident "v") "City", .ascending⟩, ⟨.dot (.ident "v") "Nights", .descending⟩]
    select := some (.dot (.ident "v") "Id") }

/-- The scopes of the visits. -/
def visitScopes : List Scope :=
  visitRecords.map fun record => [("v", .row record)]

/-- The keys of a visit. -/
def visitKeys (scope : Scope) : List Value :=
  ((evalKeys visits visitsByCity.order scope).toOption).getD []

/-- The visit whose city is unknown is first. In Oslo the one whose nights are unknown is last,
and the two of the same length stay in the order they were in. -/
theorem visitsByCity_run :
    (∃ sorted, IsOrdered [.ascending, .descending] visitKeys visitScopes sorted ∧
      visitsByCity.run visits [] =
        selectRows (visitsByCity.project visits) sorted >>= visitsByCity.finish visits []) ∧
      visitsByCity.run visits [] =
        .ok (.list [.integer 2, .integer 4, .integer 1, .integer 5, .integer 3]) := by
  have hitems : (visitsByCity.source.eval visits [] >>= sourceItems) =
      .ok (visitRecords.map .row) := rfl
  have hfiltered : visitsByCity.filtered visits [] (visitRecords.map .row) = .ok visitScopes := rfl
  have hkeys : ∀ scope ∈ visitScopes,
      evalKeys visits visitsByCity.order scope = .ok (visitKeys scope) := by
    simp only [visitScopes, visitRecords, List.map_cons, List.map_nil, List.forall_mem_cons]
    exact ⟨rfl, rfl, rfl, rfl, rfl, List.forall_mem_nil _⟩
  have hkinds : ∀ scope ∈ visitScopes,
      List.Forall₂ Value.IsKey [.string, .integer] (visitKeys scope) := by
    simp only [visitScopes, visitRecords, List.map_cons, List.map_nil, List.forall_mem_cons]
    exact ⟨.cons (.string _) (.cons (.integer _) .nil), .cons (.null _) (.cons (.integer _) .nil),
      .cons (.string _) (.cons (.null _) .nil), .cons (.string _) (.cons (.integer _) .nil),
      .cons (.string _) (.cons (.integer _) .nil), List.forall_mem_nil _⟩
  refine ⟨run_ordered hitems hfiltered hkeys hkinds, ?_⟩
  have hsorted : (visitScopes.mergeSort fun a b =>
      Value.compareKeys (visitsByCity.order.map OrderKey.direction) (visitKeys a) (visitKeys b) !=
        .gt) = [1, 3, 0, 4, 2].map fun n => visitScopes.getD n [] := by
    simp +decide [visitScopes, visitRecords, List.mergeSort, List.MergeSort.Internal.splitInTwo]
  rw [run_eq, hitems, ok_bind, selected_eq_project, hfiltered, ok_bind, sortScopes_eq hkeys,
    hsorted]
  rfl

end Query

end Hql

end ObjectQuery
