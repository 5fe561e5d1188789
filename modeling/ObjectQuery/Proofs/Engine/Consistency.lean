import ObjectQuery.Proofs.Engine.Rows

/-!
# Keys that sort consistently

The comparison of values is not transitive on all values, and so the
comparison of rows of keys is not either. It is where each item has keys on
which values sort consistently. Then there is one order to sort into, in
which the ties are as they were. A filter may then be moved past the sort: it
does not matter whether scopes are dropped before they are sorted or after.

Without that there is no such order. What a sort makes of the scopes depends
on how it proceeds, and it may find out that it has been misled and give up.

## Main definitions

* `KeysSortConsistently` — the comparison is transitive on the keys of scopes.
* `Hql.Query.SortsConsistently` — it is on those of a query.

## Main results

* `keysSortConsistently_of_columns`, `keysSortConsistently_of_kinds` — it is if it
  is item by item, as it is for keys of one kind.
* `sortScopes_filter` — sorting what a filter keeps.
-/

namespace ObjectQuery

open Hql (OrderKey Query)

/-! ## Rows of keys -/

namespace Value

variable {a b c : Value} {direction : Direction} {directions : List Direction}
  {as bs cs : List Value}

/-- The comparison in a direction is transitive. -/
private theorem directedCompare_isLE_trans (h : SortsConsistently [a, b, c])
    (hab : (directedCompare direction a b).isLE = true)
    (hbc : (directedCompare direction b c).isLE = true) :
    (directedCompare direction a c).isLE = true := by
  cases direction with
  | ascending => exact h.le_trans a (by simp) b (by simp) c (by simp) hab hbc
  | descending => exact h.le_trans c (by simp) b (by simp) a (by simp) hbc hab

private theorem compareKeys_cons_isLE_iff :
    (compareKeys (direction :: directions) (a :: as) (b :: bs)).isLE = true ↔
      (directedCompare direction a b).isLE = true ∧
        ((directedCompare direction b a).isLE = true →
          (compareKeys directions as bs).isLE = true) := by
  rw [compareKeys, directedCompare_swap direction a b]
  cases directedCompare direction a b <;> simp

theorem SortsConsistently.mono {column column' : List Value} (h : SortsConsistently column)
    (hsubset : column' ⊆ column) : SortsConsistently column' where
  le_trans a ha b hb c hc := h.le_trans a (hsubset ha) b (hsubset hb) c (hsubset hc)
  tie_trans a ha b hb c hc := h.tie_trans a (hsubset ha) b (hsubset hb) c (hsubset hc)

/-- Rows of keys compare transitively if the keys of each item do. -/
theorem compareKeys_isLE_trans_of_columns (has : as.length = directions.length)
    (hbs : bs.length = directions.length) (hcs : cs.length = directions.length)
    (hcolumns : ∀ n < directions.length,
      SortsConsistently [as.getD n .null, bs.getD n .null, cs.getD n .null])
    (hab : (compareKeys directions as bs).isLE = true)
    (hbc : (compareKeys directions bs cs).isLE = true) :
    (compareKeys directions as cs).isLE = true := by
  induction directions generalizing as bs cs with
  | nil => rfl
  | cons direction directions ih =>
      obtain ⟨a, as, rfl⟩ := List.exists_cons_of_length_eq_add_one has
      obtain ⟨b, bs, rfl⟩ := List.exists_cons_of_length_eq_add_one hbs
      obtain ⟨c, cs, rfl⟩ := List.exists_cons_of_length_eq_add_one hcs
      have hhead : SortsConsistently [a, b, c] := hcolumns 0 (Nat.succ_pos _)
      rw [compareKeys_cons_isLE_iff] at hab hbc ⊢
      refine ⟨directedCompare_isLE_trans hhead hab.1 hbc.1, fun hca => ?_⟩
      -- a key that is before the other two, and after them, is tied with both
      have hba := directedCompare_isLE_trans (hhead.mono (by simp)) hbc.1 hca
      have hcb := directedCompare_isLE_trans (hhead.mono (by simp)) hca hab.1
      refine ih (Nat.succ.inj has) (Nat.succ.inj hbs) (Nat.succ.inj hcs) ?_ (hab.2 hba) (hbc.2 hcb)
      intro n hn
      exact hcolumns (n + 1) (Nat.succ_lt_succ hn)

end Value

/-! ## Sorting what a filter keeps -/

section

variable {α : Type} {le : α → α → Bool} {q : α → Bool}

/-- A list splits in one way into elements that pass a test and elements that do not. -/
private theorem split_unique {before after before' after' : List α}
    (h : before ++ after = before' ++ after') (hbefore : ∀ x ∈ before, q x = true)
    (hbefore' : ∀ x ∈ before', q x = true) (hafter : ∀ x ∈ after, ¬ q x = true)
    (hafter' : ∀ x ∈ after', ¬ q x = true) : before = before' ∧ after = after' := by
  have hfilter := congrArg (List.filter q) h
  simp only [List.filter_append, List.filter_eq_self.mpr hbefore,
    List.filter_eq_self.mpr hbefore', List.filter_eq_nil_iff.mpr hafter,
    List.filter_eq_nil_iff.mpr hafter', List.append_nil] at hfilter
  exact ⟨hfilter, List.append_cancel_left (hfilter ▸ h)⟩

/-- The first element goes between those that it may not stand before and those that it may. -/
private theorem exists_mergeSort_cons
    (htrans : ∀ a b c, le a b = true → le b c = true → le a c = true)
    (htotal : ∀ a b, (le a b || le b a) = true) (x : α) (rest : List α) :
    ∃ before after, (x :: rest).mergeSort le = before ++ x :: after ∧
      rest.mergeSort le = before ++ after ∧ (∀ y ∈ before, (!le x y) = true) ∧
      ∀ y ∈ after, ¬ (!le x y) = true := by
  obtain ⟨before, after, hsorted, hrest, hbefore⟩ := List.mergeSort_cons htrans htotal x rest
  have hpairwise := List.pairwise_mergeSort htrans htotal (x :: rest)
  rw [hsorted, List.pairwise_append, List.pairwise_cons] at hpairwise
  obtain ⟨-, ⟨hafter, -⟩, -⟩ := hpairwise
  exact ⟨before, after, hsorted, hrest, hbefore, fun y hy => by simp [hafter y hy]⟩

/-- Sorting by an order and filtering exchange. -/
private theorem filter_mergeSort
    (htrans : ∀ a b c, le a b = true → le b c = true → le a c = true)
    (htotal : ∀ a b, (le a b || le b a) = true) (p : α → Bool) (xs : List α) :
    (xs.mergeSort le).filter p = (xs.filter p).mergeSort le := by
  induction xs with
  | nil => simp
  | cons x rest ih =>
      obtain ⟨before, after, hsorted, hrest, hbefore, hafter⟩ :=
        exists_mergeSort_cons htrans htotal x rest
      rw [hrest, List.filter_append] at ih
      rw [hsorted, List.filter_append, List.filter_cons, List.filter_cons]
      cases p x with
      | false => exact ih
      | true =>
          obtain ⟨before', after', hsorted', hrest', hbefore', hafter'⟩ :=
            exists_mergeSort_cons htrans htotal x (rest.filter p)
          rw [hrest'] at ih
          obtain ⟨hleft, hright⟩ := split_unique ih
            (fun y hy => hbefore y (List.mem_of_mem_filter hy)) hbefore'
            (fun y hy => hafter y (List.mem_of_mem_filter hy)) hafter'
          rw [if_pos rfl, if_pos rfl, hsorted', hleft, hright]

/-- Sorting and filtering exchange if the comparison is an order of the elements of the list,
though it may not be one of everything of their type. -/
private theorem filter_mergeSort_of_mem {xs : List α}
    (htrans : ∀ a ∈ xs, ∀ b ∈ xs, ∀ c ∈ xs, le a b = true → le b c = true → le a c = true)
    (htotal : ∀ a b, (le a b || le b a) = true) (p : α → Bool) :
    (xs.mergeSort le).filter p = (xs.filter p).mergeSort le := by
  have htrans' : ∀ a b c : { a // a ∈ xs }, le a b = true → le b c = true → le a c = true :=
    fun a b c => htrans a a.2 b b.2 c c.2
  have htotal' : ∀ a b : { a // a ∈ xs }, (le a b || le b a) = true :=
    fun a b => htotal a b
  have hmap : ∀ members : List { a // a ∈ xs },
      (members.mergeSort fun a b => le a b).map Subtype.val =
        (members.map Subtype.val).mergeSort le :=
    fun _ => List.map_mergeSort fun _ _ _ _ => rfl
  have hfilter : ∀ members : List { a // a ∈ xs },
      (members.filter fun a => p a.val).map Subtype.val = (members.map Subtype.val).filter p :=
    fun _ => List.filter_map.symm
  have hexchange := congrArg (List.map Subtype.val)
    (filter_mergeSort htrans' htotal' (fun a => p a) xs.attach)
  rwa [hfilter, hmap, hmap, hfilter, List.attach_map_subtype_val] at hexchange

end

/-! ## Scopes -/

/-- The comparison is transitive on the keys of scopes. -/
def KeysSortConsistently (directions : List Direction) (keys : Scope → Outcome (List Value))
    (scopes : List Scope) : Prop :=
  ∀ a ∈ scopes, ∀ b ∈ scopes, ∀ c ∈ scopes, ∀ as bs cs,
    keys a = .ok as → keys b = .ok bs → keys c = .ok cs →
      (Value.compareKeys directions as bs).isLE = true →
        (Value.compareKeys directions bs cs).isLE = true →
          (Value.compareKeys directions as cs).isLE = true

variable {directions : List Direction} {find : Scope → Outcome (List Value)} {scopes : List Scope}

/-- The keys of scopes sort consistently if the values of each item do. -/
theorem keysSortConsistently_of_columns {keys : Scope → List Value}
    (hkeys : ∀ scope ∈ scopes, find scope = .ok (keys scope))
    (hlength : ∀ scope ∈ scopes, (keys scope).length = directions.length)
    (hcolumns : ∀ n < directions.length,
      Value.SortsConsistently (scopes.map fun scope => (keys scope).getD n .null)) :
    KeysSortConsistently directions find scopes := by
  intro a ha b hb c hc as bs cs has hbs hcs
  obtain rfl := Except.ok.inj ((hkeys a ha).symm.trans has)
  obtain rfl := Except.ok.inj ((hkeys b hb).symm.trans hbs)
  obtain rfl := Except.ok.inj ((hkeys c hc).symm.trans hcs)
  refine Value.compareKeys_isLE_trans_of_columns (hlength a ha) (hlength b hb) (hlength c hc) ?_
  intro n hn
  refine (hcolumns n hn).mono ?_
  simp only [List.cons_subset, List.mem_map]
  exact ⟨⟨a, ha, rfl⟩, ⟨b, hb, rfl⟩, ⟨c, hc, rfl⟩, List.nil_subset _⟩

/-- Keys that are null or of one kind for each item sort consistently. -/
theorem keysSortConsistently_of_kinds {keys : Scope → List Value} {kinds : List Kind}
    (hkeys : ∀ scope ∈ scopes, find scope = .ok (keys scope))
    (hlength : directions.length = kinds.length)
    (hkinds : ∀ scope ∈ scopes, List.Forall₂ Value.IsKey kinds (keys scope)) :
    KeysSortConsistently directions find scopes := by
  intro a ha b hb c hc as bs cs has hbs hcs
  obtain rfl := Except.ok.inj ((hkeys a ha).symm.trans has)
  obtain rfl := Except.ok.inj ((hkeys b hb).symm.trans hbs)
  obtain rfl := Except.ok.inj ((hkeys c hc).symm.trans hcs)
  exact Value.compareKeys_isLE_trans hlength (hkinds a ha) (hkinds b hb) (hkinds c hc)

/-- Where keys sort consistently, a filter keeps the same scopes in the same order before they
are sorted and after. -/
theorem sortScopes_filter {sorted : List Scope} (h : KeysSortConsistently directions find scopes)
    (hsorted : sortScopes directions find scopes = .ok sorted) (p : Scope → Bool) :
    sortScopes directions find (scopes.filter p) = .ok (sorted.filter p) := by
  have hfind := exists_sortScopes_iff.mp ⟨sorted, hsorted⟩
  choose! keys hkeys using hfind
  rw [sortScopes_eq hkeys] at hsorted
  rw [sortScopes_eq fun scope hscope => hkeys scope (List.mem_of_mem_filter hscope),
    ← Except.ok.inj hsorted]
  have hne_gt : ∀ o : Ordering, (o != .gt) = o.isLE := by decide
  simp only [hne_gt]
  refine congrArg Except.ok (filter_mergeSort_of_mem ?_ (fun a b => ?_) p).symm
  · intro a ha b hb c hc
    exact h a ha b hb c hc _ _ _ (hkeys a ha) (hkeys b hb) (hkeys c hc)
  · exact Value.compareKeys_isLE_total directions (keys a) (keys b)

/-- The keys of the scopes that a query orders sort consistently. -/
def Hql.Query.SortsConsistently (env : Environment) (q : Query) (outer : Scope) : Prop :=
  ∀ items scopes, (q.source.eval env outer >>= sourceItems) = .ok items →
    q.filtered env outer items = .ok scopes →
      KeysSortConsistently (q.order.map OrderKey.direction) (Hql.evalKeys env q.order) scopes

end ObjectQuery
