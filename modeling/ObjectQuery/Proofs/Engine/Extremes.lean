import ObjectQuery.Proofs.Engine.Rows

/-!
# The least and the greatest value

The least of several values is found in one pass, which keeps the best value so
far. Where the values are null or of one kind, it is the value that comes first
when they are sorted: nulls are passed over by the one and left out by the
other, and tied values are the same. The greatest value comes first in the
descending order.

So the query that selects an extreme has the result of another one, which
leaves out the rows without a value, sorts the others by what is selected, and
takes the first one. Rows are skipped and taken after they are sorted, so for a
page of rows it is the page that has to be sorted, and not what the page is cut
out of.

## Main definitions

* `Value.IsFirst` — a value comes first of those that are not null.
* `Hql.Query.firstPresent` — the query for the first value that is not null.
* `Hql.Query.ofPage` — the query over the page of another one.

## Main results

* `Value.isFirst_extreme`, `Value.IsFirst.unique` — the extreme comes first, and
  nothing else does.
* `Hql.Query.run_extreme` — an extreme is the first value that is not null.
-/

namespace ObjectQuery

/-! ## Values in one pass -/

/-- How the better one of two values compares with the other. -/
def Direction.wanted : Direction → Ordering
  | .ascending => .lt
  | .descending => .gt

namespace Value

variable {kind : Kind} {direction : Direction} {a b c v w : Value} {values others : List Value}

/-- The first value may stand before the second one. -/
def NotAfter (direction : Direction) (a b : Value) : Prop :=
  a = b ∨ Precedes direction a b

private theorem notAfter_of_inOrder (h : InOrder [direction] [a] [b]) : NotAfter direction a b := by
  cases h with
  | precedes h => exact .inr h
  | same => exact .inl rfl

theorem NotAfter.trans (hab : NotAfter direction a b) (hbc : NotAfter direction b c) :
    NotAfter direction a c := by
  rcases hab with rfl | hab
  · exact hbc
  · rcases hbc with rfl | hbc
    · exact .inr hab
    · exact .inr (hab.trans hbc)

theorem Before.irrefl (h : Before a a) : False := by
  cases h with
  | null h => cases h
  | integer h => exact Int64.lt_irrefl h
  | string h => exact String.lt_irrefl _ h

theorem NotAfter.antisymm (hab : NotAfter direction a b) (hba : NotAfter direction b a) :
    a = b := by
  rcases hab with rfl | hab
  · rfl
  · rcases hba with rfl | hba
    · rfl
    · cases direction with
      | ascending => exact (Before.trans hab hba).irrefl.elim
      | descending => exact (Before.trans hba hab).irrefl.elim

/-- Of two keys one may stand before the other. -/
theorem notAfter_of_ne_lt (ha : IsKey kind a) (hb : IsKey kind b)
    (h : directedCompare direction a b ≠ .lt) : NotAfter direction b a := by
  cases hcompare : directedCompare direction a b with
  | lt => exact absurd hcompare h
  | eq => exact .inl ((directedCompare_eq_eq_iff direction ha hb).mp hcompare).symm
  | gt =>
      have hswap := directedCompare_swap direction a b
      rw [hcompare] at hswap
      exact .inr ((directedCompare_eq_lt_iff direction hb ha).mp hswap)

/-- The value comes first, in a direction, of those that are not null. -/
structure IsFirst (direction : Direction) (values : List Value) (v : Value) : Prop where
  mem : v ∈ values
  present : v.isNull = false
  notAfter : ∀ w ∈ values, w.isNull = false → NotAfter direction v w

theorem IsFirst.unique (hv : IsFirst direction values v) (hw : IsFirst direction values w) :
    v = w :=
  (hv.notAfter w hw.mem hw.present).antisymm (hw.notAfter v hv.mem hv.present)

/-- What comes first depends on which values there are that are not null. -/
theorem IsFirst.congr (hsame : ∀ v, v.isNull = false → (v ∈ values ↔ v ∈ others))
    (h : IsFirst direction values v) : IsFirst direction others v :=
  ⟨(hsame v h.present).mp h.mem, h.present,
    fun w hw hpresent => h.notAfter w ((hsame w hpresent).mpr hw) hpresent⟩

/-- The better of the best value so far and one more. -/
def better (direction : Direction) (best v : Value) : Value :=
  if directedCompare direction v best = .lt then v else best

theorem extreme_eq (direction : Direction) (values : List Value) :
    extreme direction.wanted values =
      match presentOnly values with
      | [] => .null
      | v :: rest => rest.foldl (better direction) v := by
  have hstep : ∀ best v : Value,
      (if v.sortCompare best = direction.wanted then some v else some best) =
        some (better direction best v) := by
    intro best v
    have hwanted : v.sortCompare best = direction.wanted ↔
        directedCompare direction v best = .lt := by
      cases direction with
      | ascending => exact Iff.rfl
      | descending =>
          show v.sortCompare best = .gt ↔ best.sortCompare v = .lt
          rw [sortCompare_swap v best]
          cases v.sortCompare best <;> decide
    unfold better
    rw [if_congr hwanted rfl rfl]
    split <;> rfl
  unfold extreme presentOnly
  cases values.filter fun v => !v.isNull with
  | nil => rfl
  | cons v rest =>
      simp only [List.foldl_cons, hstep]
      induction rest generalizing v with
      | nil => rfl
      | cons w rest ih => exact ih (better direction v w)

/-- The better of two keys comes first of both. -/
theorem isFirst_better (hv : IsKey kind v) (hw : IsKey kind w) (hpresent : v.isNull = false)
    (hother : w.isNull = false) : IsFirst direction [v, w] (better direction v w) := by
  unfold better
  split
  · next hlt =>
      refine ⟨List.mem_cons_of_mem v List.mem_cons_self, hother, fun u hu _ => ?_⟩
      rcases List.mem_pair.mp hu with rfl | rfl
      · exact .inr ((directedCompare_eq_lt_iff direction hw hv).mp hlt)
      · exact .inl rfl
  · next hlt =>
      refine ⟨List.mem_cons_self, hpresent, fun u hu _ => ?_⟩
      rcases List.mem_pair.mp hu with rfl | rfl
      · exact .inl rfl
      · exact notAfter_of_ne_lt hw hv hlt

/-- What comes first of two values stands for both. -/
theorem IsFirst.cons_cons (hpair : IsFirst direction [v, w] a)
    (h : IsFirst direction (a :: values) b) : IsFirst direction (v :: w :: values) b := by
  refine ⟨?_, h.present, fun u hu hpresent => ?_⟩
  · rcases List.mem_cons.mp h.mem with rfl | hb
    · exact List.mem_append_left values hpair.mem
    · exact List.mem_cons_of_mem v (List.mem_cons_of_mem w hb)
  · rcases List.mem_append.mp (show u ∈ [v, w] ++ values from hu) with hu | hu
    · exact (h.notAfter a List.mem_cons_self hpair.present).trans (hpair.notAfter u hu hpresent)
    · exact h.notAfter u (List.mem_cons_of_mem a hu) hpresent

/-- The best value after a pass comes first of all values of the pass. -/
theorem isFirst_foldl_better (hkeys : ∀ w ∈ v :: values, IsKey kind w)
    (hpresent : ∀ w ∈ v :: values, w.isNull = false) :
    IsFirst direction (v :: values) (values.foldl (better direction) v) := by
  induction values generalizing v with
  | nil =>
      refine ⟨List.mem_cons_self, hpresent v List.mem_cons_self, fun w hw _ => ?_⟩
      exact .inl (List.mem_singleton.mp hw).symm
  | cons w values ih =>
      have hpair : IsFirst direction [v, w] (better direction v w) := by
        simp only [List.forall_mem_cons] at hkeys hpresent
        exact isFirst_better hkeys.1 hkeys.2.1 hpresent.1 hpresent.2.1
      have hamong : better direction v w :: values ⊆ v :: w :: values :=
        List.cons_subset.mpr ⟨List.mem_append_left values hpair.mem,
          List.subset_cons_of_subset v (List.subset_cons_self w values)⟩
      exact hpair.cons_cons (ih (fun u hu => hkeys u (hamong hu)) fun u hu =>
        hpresent u (hamong hu))

/-- The extreme comes first, if anything does. -/
theorem isFirst_extreme (hkeys : ∀ v ∈ values, IsKey kind v)
    (hpresent : ∃ v ∈ values, v.isNull = false) :
    IsFirst direction values (extreme direction.wanted values) := by
  have hmem : ∀ v, v ∈ presentOnly values ↔ v ∈ values ∧ v.isNull = false := by
    intro v
    rw [presentOnly, List.mem_filter, Bool.not_eq_true']
  have hfirst : IsFirst direction (presentOnly values) (extreme direction.wanted values) := by
    rw [extreme_eq]
    cases hlist : presentOnly values with
    | nil =>
        obtain ⟨v, hv⟩ := hpresent
        cases hlist ▸ (hmem v).mpr hv
    | cons v rest =>
        rw [hlist] at hmem
        exact isFirst_foldl_better (fun w hw => hkeys w ((hmem w).mp hw).1) fun w hw =>
          ((hmem w).mp hw).2
  exact hfirst.congr fun v hv => (hmem v).trans (and_iff_left hv)

/-- Without a value that is not null the extreme is null. -/
theorem extreme_of_forall_isNull (direction : Direction)
    (h : ∀ v ∈ values, v.isNull = true) : extreme direction.wanted values = .null := by
  have hnone : presentOnly values = [] := by
    rw [presentOnly, List.filter_eq_nil_iff]
    intro v hv
    rw [h v hv]
    exact Bool.false_ne_true
  rw [extreme_eq, hnone]

/-- The extreme is null exactly where all values are. -/
theorem extreme_isNull_iff (hkeys : ∀ v ∈ values, IsKey kind v) :
    (extreme direction.wanted values).isNull = true ↔ ∀ v ∈ values, v.isNull = true := by
  constructor
  · intro hnull v hv
    cases hpresent : v.isNull with
    | true => rfl
    | false => exact (isFirst_extreme hkeys ⟨v, hv, hpresent⟩).present.symm.trans hnull
  · intro hall
    rw [extreme_of_forall_isNull direction hall]
    rfl

/-- The extreme depends on which values there are, and not on how often. -/
theorem extreme_congr (hkeys : ∀ v ∈ values, IsKey kind v)
    (hsame : ∀ v, v ∈ values ↔ v ∈ others) :
    extreme direction.wanted others = extreme direction.wanted values := by
  by_cases hpresent : ∃ v ∈ values, v.isNull = false
  · have hfirst : IsFirst direction others (extreme direction.wanted values) :=
      (isFirst_extreme hkeys hpresent).congr fun v _ => hsame v
    obtain ⟨v, hv, hvpresent⟩ := hpresent
    exact (isFirst_extreme (fun w hw => hkeys w ((hsame w).mpr hw))
      ⟨v, (hsame v).mp hv, hvpresent⟩).unique hfirst
  · have hnull : ∀ v ∈ values, v.isNull = true := by
      intro v hv
      cases hvpresent : v.isNull with
      | true => rfl
      | false => exact absurd ⟨v, hv, hvpresent⟩ hpresent
    rw [extreme_of_forall_isNull direction hnull,
      extreme_of_forall_isNull direction fun v hv => hnull v ((hsame v).mpr hv)]

/-- Only the key itself is the same as a key. -/
theorem IsKey.eq_of_same (ha : IsKey kind a) (h : a.same b = true) : a = b := by
  cases ha with
  | null => cases b <;> first | rfl | cases h
  | integer m =>
      cases b with
      | integer n => exact congrArg Value.integer (eq_of_beq h)
      | _ => cases h
  | string s =>
      cases b with
      | string t => exact congrArg Value.string (eq_of_beq h)
      | _ => cases h
  | boolean x =>
      cases b with
      | boolean y => exact congrArg Value.boolean (eq_of_beq h)
      | _ => cases h

/-- Dropping repeated keys keeps every key. -/
theorem mem_map_distinctBy {α : Type} {value : α → Value} {entries : List α}
    (hkeys : ∀ entry ∈ entries, IsKey kind (value entry)) :
    v ∈ (distinctBy value [] entries).map value ↔ v ∈ entries.map value := by
  simp only [List.mem_map]
  constructor
  · rintro ⟨entry, hentry, rfl⟩
    exact ⟨entry, mem_of_mem_distinctBy hentry, rfl⟩
  · rintro ⟨entry, hentry, rfl⟩
    rcases mem_distinctBy_or_exists_same value hentry with hkept | ⟨kept, hkept, hsame⟩
    · exact ⟨entry, hkept, rfl⟩
    · exact ⟨kept, hkept, (hkeys kept (mem_of_mem_distinctBy hkept)).eq_of_same hsame⟩

private theorem isTrue_boolean (b : Bool) : (boolean b).isTrue = b := by
  cases b <;> rfl

end Value

/-! ## Scopes in order -/

section

variable {direction : Direction} {value : Scope → Value} {scopes : List Scope}

/-- Of the scopes with a value, sorted by it, the first one has the value that comes first. -/
theorem IsOrdered.isFirst {scope : Scope} {rest : List Scope}
    (h : IsOrdered [direction] (fun scope => [value scope])
      (scopes.filter fun scope => !(value scope).isNull) (scope :: rest)) :
    Value.IsFirst direction (scopes.map value) (value scope) := by
  have hmem : ∀ {other}, other ∈ scope :: rest ↔
      other ∈ scopes ∧ (!(value other).isNull) = true := by
    intro other
    rw [h.perm.mem_iff, List.mem_filter]
  obtain ⟨hscope, hpresent⟩ := hmem.mp List.mem_cons_self
  refine ⟨List.mem_map_of_mem hscope, Bool.not_eq_true' _ |>.mp hpresent, ?_⟩
  intro v hv hvpresent
  obtain ⟨other, hother, rfl⟩ := List.mem_map.mp hv
  have hothers : other ∈ scope :: rest := hmem.mpr ⟨hother, by rw [hvpresent]; rfl⟩
  rcases List.mem_cons.mp hothers with rfl | hrest
  · exact .inl rfl
  · exact Value.notAfter_of_inOrder (List.rel_of_pairwise_cons h.in_order hrest)

private theorem isNull_of_isOrdered_nil (h : IsOrdered [direction] (fun scope => [value scope])
      (scopes.filter fun scope => !(value scope).isNull) []) :
    ∀ v ∈ scopes.map value, v.isNull = true := by
  refine List.forall_mem_map.mpr fun scope hscope => ?_
  have hnone := List.filter_eq_nil_iff.mp (List.nil_perm.mp h.perm) scope hscope
  rwa [Bool.not_eq_true', Bool.not_eq_false] at hnone

end

/-! ## Queries -/

namespace Hql

variable {env : Environment} {outer scope : Scope} {kind : Kind}

/-- The aggregate for the value that comes first in a direction. -/
def Aggregate.extreme : Direction → Aggregate
  | .ascending => .min
  | .descending => .max

private theorem runAggregate_extreme (direction : Direction) (rows : List Row) :
    runAggregate env (some (.extreme direction)) rows outer =
      .ok (Value.extreme direction.wanted (rows.map Row.value)) := by
  cases direction <;> rfl

namespace Query

variable {q : Query} {rows : List Row} {direction : Direction}

/-- What a query selects, as a node. -/
def selection (q : Query) : Node :=
  q.select.getD (.ident q.name)

/-- The condition that the last filter is passed and something that is not null is selected. -/
def presentCondition (q : Query) : Node :=
  match q.having with
  | none => .isNotNull q.selection
  | some having => .choice [(having, .isNotNull q.selection)] (some (.constant (.boolean false)))

/-- The query for the first value that is not null, in the order of the values in a direction. -/
def firstPresent (direction : Direction) (q : Query) : Query :=
  { q with
    having := some q.presentCondition
    order := [⟨q.selection, direction⟩]
    aggregate := some .first }

/-- The query for the extreme of what a query selects. -/
def extreme (direction : Direction) (q : Query) : Query :=
  { q with aggregate := some (.extreme direction) }

/-- The query over the page of a query. -/
def ofPage (q : Query) : Query :=
  .ofSource (.subquery { q with aggregate := none }) q.name

private theorem selection_eval (q : Query) (scope : Scope) :
    q.selection.eval env scope = q.project env scope := by
  unfold selection project
  cases q.select with
  | some node => rfl
  | none =>
      show (Node.ident q.name).eval env scope = _
      rw [Node.eval]

/-- The condition holds in the scopes that pass the last filter and have something selected. -/
theorem presentCondition_eval {condition : Value}
    (hcondition : filterValue env q.having scope = .ok condition)
    (hproject : condition.isTrue = true → ∃ v, q.project env scope = .ok v) :
    q.presentCondition.eval env scope =
      .ok (.boolean (condition.isTrue && !(rowIn (q.project env) scope).value.isNull)) := by
  have hpresent : condition.isTrue = true → (Node.isNotNull q.selection).eval env scope =
      .ok (.boolean !(rowIn (q.project env) scope).value.isNull) := by
    intro htrue
    obtain ⟨v, hv⟩ := hproject htrue
    rw [Node.eval, selection_eval, rowIn, hv]
    rfl
  unfold presentCondition
  cases hhaving : q.having with
  | none =>
      rw [hhaving] at hcondition
      obtain rfl := Except.ok.inj hcondition
      exact hpresent rfl
  | some having =>
      rw [hhaving] at hcondition
      show (Node.choice [(having, .isNotNull q.selection)] (some (.constant (.boolean false)))).eval
        env scope = _
      rw [Node.eval, evalWhens, show having.eval env scope = .ok condition from hcondition, ok_bind]
      cases htrue : condition.isTrue with
      | true =>
          rw [if_pos rfl, hpresent htrue]
          rfl
      | false =>
          rw [if_neg Bool.false_ne_true, evalWhens, ok_bind, evalOption, Node.eval]
          · rfl
          · intro entity h
            cases h

/-- The scopes that are left are those in which something is selected. -/
theorem firstPresent_filtered {items : List Value} {filtered : List Scope}
    (h : q.filtered env outer items = .ok filtered)
    (hproject : ∀ scope ∈ filtered, ∃ v, q.project env scope = .ok v) :
    (q.firstPresent direction).filtered env outer items =
      .ok (filtered.filter fun scope => !(rowIn (q.project env) scope).value.isNull) := by
  unfold Query.filtered at h
  obtain ⟨joined, hjoined, h⟩ := bind_eq_ok.mp h
  obtain ⟨kept, hkept, h⟩ := bind_eq_ok.mp h
  rw [runFilter_eq_keepTrue] at h
  obtain ⟨hhaving, rfl⟩ := keepTrue_eq_ok_iff.mp h
  have hcondition : ∀ scope ∈ kept, q.presentCondition.eval env scope =
      .ok (.boolean (meets (filterValue env q.having) scope &&
        !(rowIn (q.project env) scope).value.isNull)) := by
    intro scope hscope
    obtain ⟨condition, hvalue⟩ := hhaving scope hscope
    rw [meets_of_eq_ok hvalue]
    refine presentCondition_eval hvalue fun htrue => hproject scope ?_
    exact List.mem_filter.mpr ⟨hscope, (meets_of_eq_ok hvalue).trans htrue⟩
  refine bind_eq_ok.mpr ⟨joined, hjoined, bind_eq_ok.mpr ⟨kept, hkept, ?_⟩⟩
  refine keepTrue_eq_ok_iff.mpr ⟨fun scope hscope => ⟨_, hcondition scope hscope⟩, ?_⟩
  rw [List.filter_filter]
  refine List.filter_congr fun scope hscope => ?_
  rw [meets_of_eq_ok (hcondition scope hscope), Bool.and_comm]
  exact Value.isTrue_boolean _

/-- Where a query has rows, they are those of the scopes that its filters keep, in some order. -/
theorem exists_filtered (h : q.rows env outer = .ok rows) :
    ∃ items filtered, (q.source.eval env outer >>= sourceItems) = .ok items ∧
      q.filtered env outer items = .ok filtered ∧
      (∀ scope ∈ filtered, ∃ v, q.project env scope = .ok v) ∧
      rows.Perm (filtered.map (rowIn (q.project env))) := by
  obtain ⟨items, hitems, h⟩ := bind_eq_ok.mp h
  rw [selected_eq_project] at h
  obtain ⟨filtered, hfiltered, h⟩ := bind_eq_ok.mp h
  obtain ⟨sorted, hsorted, h⟩ := bind_eq_ok.mp h
  have hperm := sortScopes_perm hsorted
  obtain ⟨hproject, rfl⟩ := selectRows_eq_ok_iff.mp h
  exact ⟨items, filtered, hitems, hfiltered,
    fun scope hscope => hproject scope (hperm.mem_iff.mpr hscope), hperm.map _⟩

private theorem finish_of_unpaged (hskip : q.skip = none) (htake : q.take = none)
    (rows : List Row) :
    q.finish env outer rows = runAggregate env q.aggregate (q.distinctRows rows) outer := by
  have hpaged : q.finish env outer rows =
      q.paged env outer rows >>= fun rows => runAggregate env q.aggregate rows outer := by
    unfold finish paged
    simp only [bind_assoc, pure_bind]
  rw [hpaged, paged_of_unpaged hskip htake, ok_bind]

/-- The first row is not dropped. -/
theorem first_distinctRows (q : Query) (rows : List Row) :
    Value.first ((q.distinctRows rows).map Row.value) = Value.first (rows.map Row.value) := by
  unfold distinctRows
  cases q.distinct with
  | false => rfl
  | true => cases rows <;> rfl

/-- Dropping repeated keys keeps the extreme. -/
theorem extreme_distinctRows (hkinds : ∀ row ∈ rows, Value.IsKey kind row.value) :
    Value.extreme direction.wanted ((q.distinctRows rows).map Row.value) =
      Value.extreme direction.wanted (rows.map Row.value) := by
  unfold distinctRows
  cases q.distinct with
  | false => rfl
  | true =>
      exact Value.extreme_congr (List.forall_mem_map.mpr hkinds)
        fun v => (Value.mem_map_distinctBy hkinds).symm

/-- What a query selects in a scope, null where it cannot select anything. -/
def selectedValue (env : Environment) (q : Query) (scope : Scope) : Value :=
  (rowIn (q.project env) scope).value

/-- In a query that is not paged, the first value that is not null is the extreme. -/
theorem firstPresent_run (direction : Direction) (hskip : q.skip = none) (htake : q.take = none)
    (hrows : q.rows env outer = .ok rows) (hkinds : ∀ row ∈ rows, Value.IsKey kind row.value) :
    (q.firstPresent direction).run env outer =
      if (Value.extreme direction.wanted (rows.map Row.value)).isNull then .error .emptySequence
      else .ok (Value.extreme direction.wanted (rows.map Row.value)) := by
  obtain ⟨items, filtered, hitems, hfiltered, hproject, hperm⟩ := exists_filtered hrows
  have hmem : ∀ v, v ∈ filtered.map (q.selectedValue env) ↔ v ∈ rows.map Row.value := by
    intro v
    rw [(hperm.map Row.value).mem_iff, List.map_map]
    rfl
  have hkey : ∀ scope ∈ filtered, Value.IsKey kind (q.selectedValue env scope) := fun scope hscope =>
    List.forall_mem_map.mpr hkinds _ ((hmem _).mp (List.mem_map_of_mem hscope))
  have hproject' : ∀ scope ∈ filtered, q.project env scope = .ok (q.selectedValue env scope) := by
    intro scope hscope
    obtain ⟨v, hv⟩ := hproject scope hscope
    show _ = Except.ok ((q.project env scope).toOption.getD .null)
    rw [hv]
    rfl
  have hkeys : ∀ scope ∈ filtered.filter fun scope => !(q.selectedValue env scope).isNull,
      evalKeys env (q.firstPresent direction).order scope = .ok [q.selectedValue env scope] := by
    intro scope hscope
    show evalKeys env [⟨q.selection, direction⟩] scope = _
    rw [evalKeys, selection_eval, hproject' scope (List.mem_filter.mp hscope).1]
    rfl
  obtain ⟨sorted, hsorted, hrun⟩ := run_ordered (q := q.firstPresent direction) hitems
    (firstPresent_filtered hfiltered hproject) hkeys
    fun scope hscope => List.Forall₂.cons (hkey scope (List.mem_filter.mp hscope).1) .nil
  have hselect : selectRows ((q.firstPresent direction).project env) sorted =
      .ok (sorted.map (rowIn (q.project env))) := by
    refine selectRows_eq_ok_iff.mpr ⟨fun scope hscope => hproject scope ?_, rfl⟩
    exact (List.mem_filter.mp (hsorted.perm.mem_iff.mp hscope)).1
  rw [hrun, hselect, ok_bind, finish_of_unpaged (q := q.firstPresent direction) hskip htake]
  show Value.first (((q.firstPresent direction).distinctRows _).map Row.value) = _
  rw [first_distinctRows, Value.extreme_congr (List.forall_mem_map.mpr hkey) hmem]
  cases sorted with
  | nil =>
      rw [Value.extreme_of_forall_isNull direction (isNull_of_isOrdered_nil hsorted)]
      rfl
  | cons scope rest =>
      have hfirst : Value.IsFirst direction (filtered.map (q.selectedValue env)) (q.selectedValue env scope) := hsorted.isFirst
      have hextreme := hfirst.unique (Value.isFirst_extreme (List.forall_mem_map.mpr hkey)
        ⟨q.selectedValue env scope, hfirst.mem, hfirst.present⟩)
      rw [← hextreme, hfirst.present, if_neg Bool.false_ne_true]
      rfl

/-! ## Pages -/

theorem mem_of_paged {page : List Row} (h : q.paged env outer rows = .ok page) {row : Row}
    (hrow : row ∈ page) : row ∈ rows := by
  unfold paged at h
  obtain ⟨skipped, -, h⟩ := bind_eq_ok.mp h
  obtain ⟨taken, -, h⟩ := bind_eq_ok.mp h
  obtain rfl := Except.ok.inj h
  exact mem_of_mem_distinctRows (List.mem_of_mem_drop (List.mem_of_mem_take hrow))

/-- The rows of the query over a page have the values of the page. -/
theorem ofPage_rows (h : q.page env outer = .ok rows) :
    q.ofPage.rows env outer =
      .ok (rows.map fun row => ⟨row.value, (q.name, row.value) :: outer⟩) := by
  have hsource : q.ofPage.source.eval env outer = .ok (.list (rows.map Row.value)) := by
    show (Node.subquery { q with aggregate := none }).eval env outer = _
    rw [Node.eval]
    exact (run_list_iff rfl).mpr ⟨rows, h, rfl⟩
  have hfiltered : q.ofPage.filtered env outer (rows.map Row.value) =
      .ok ((rows.map Row.value).map fun item => (q.name, item) :: outer) :=
    rfl
  have hproject : ∀ item, q.ofPage.project env ((q.name, item) :: outer) = .ok item := by
    intro item
    show Scope.item ((q.name, item) :: outer) q.name = .ok item
    unfold Scope.item
    rw [List.lookup_cons_self]
  refine bind_eq_ok.mpr ⟨rows.map Row.value, by rw [hsource]; rfl, ?_⟩
  rw [selected_eq_project, hfiltered, ok_bind]
  show sortScopes ([].map OrderKey.direction) (evalKeys env []) _ >>= _ = _
  rw [sortScopes_nil, ok_bind]
  refine selectRows_eq_ok_iff.mpr ⟨?_, ?_⟩
  · simp only [List.forall_mem_map]
    exact fun row _ => ⟨row.value, hproject row.value⟩
  · rw [List.map_map, List.map_map]
    refine List.map_congr_left fun row _ => ?_
    show rowIn (q.ofPage.project env) ((q.name, row.value) :: outer) = _
    rw [rowIn, hproject]
    rfl

/-- The extreme of what a query selects is the first value that is not null, in the query over
its page; and if no rows are skipped or taken, also in the query itself. It is null exactly where
there is no such value. -/
theorem run_extreme (direction : Direction) {page : List Row}
    (hrows : q.rows env outer = .ok rows) (hkinds : ∀ row ∈ rows, Value.IsKey kind row.value)
    (hpage : q.paged env outer rows = .ok page) :
    ∃ v, (q.extreme direction).run env outer = .ok v ∧
      (v.isNull = true ↔ ∀ row ∈ page, row.value.isNull = true) ∧
      (q.ofPage.firstPresent direction).run env outer =
        (if v.isNull then .error .emptySequence else .ok v) ∧
      (q.skip = none → q.take = none →
        (v.isNull = true ↔ ∀ row ∈ rows, row.value.isNull = true) ∧
        (q.firstPresent direction).run env outer =
          if v.isNull then .error .emptySequence else .ok v) := by
  have hkindsPage : ∀ row ∈ page, Value.IsKey kind row.value := fun row hrow =>
    hkinds row (mem_of_paged hpage hrow)
  have hpage' : q.page env outer = .ok page := bind_eq_ok.mpr ⟨rows, hrows, hpage⟩
  have hnull : ∀ {rows : List Row}, (∀ row ∈ rows, Value.IsKey kind row.value) →
      ((Value.extreme direction.wanted (rows.map Row.value)).isNull = true ↔
        ∀ row ∈ rows, row.value.isNull = true) := by
    intro rows hkinds
    rw [Value.extreme_isNull_iff (List.forall_mem_map.mpr hkinds), List.forall_mem_map]
  refine ⟨Value.extreme direction.wanted (page.map Row.value), ?_, hnull hkindsPage, ?_, ?_⟩
  · rw [run_eq_page, show (q.extreme direction).page env outer = .ok page from hpage', ok_bind]
    exact runAggregate_extreme direction page
  · rw [firstPresent_run direction rfl rfl (ofPage_rows hpage')
      (List.forall_mem_map.mpr hkindsPage), List.map_map]
    rfl
  · intro hskip htake
    rw [paged_of_unpaged hskip htake] at hpage
    obtain rfl := Except.ok.inj hpage
    rw [extreme_distinctRows hkinds]
    exact ⟨hnull hkinds, firstPresent_run direction hskip htake hrows hkinds⟩

/-- The nights of the visits, of which a number may be taken. -/
def nights (take : Option Node) : Query :=
  { Query.ofSource (.entity "Visit") "v" with
    select := some (.dot (.ident "v") "Nights")
    take := take }

/-- The nights of the first visit. -/
def firstNights : Query :=
  nights (some (.constant (.integer 1)))

/-- The row of a visit with one of its members. -/
def visitRow (member : String) (record : Record) : Row :=
  ⟨((record.lookup member).map Value.ofJson).getD .null, [("v", .row record)]⟩

/-- The key of a visit where the nights are put in order. -/
def nightsKeys (scope : Scope) : List Value :=
  ((evalKeys visits (firstNights.firstPresent .descending).order scope).toOption).getD []

private theorem nights_rows (take : Option Node) :
    (nights take).rows visits [] = .ok (visitRecords.map (visitRow "Nights")) := by
  refine bind_eq_ok.mpr ⟨visitRecords.map .row, rfl, ?_⟩
  rw [selected_eq_project]
  refine bind_eq_ok.mpr ⟨visitScopes, rfl, ?_⟩
  show sortScopes ([].map OrderKey.direction) (evalKeys visits []) _ >>= _ = _
  rw [sortScopes_nil]
  rfl

private theorem nights_isKey :
    ∀ row ∈ visitRecords.map (visitRow "Nights"), Value.IsKey .integer row.value := by
  simp only [visitRecords, List.map_cons, List.map_nil, List.forall_mem_cons]
  exact ⟨.integer _, .integer _, .null _, .integer _, .integer _, List.forall_mem_nil _⟩

private theorem firstNights_paged :
    firstNights.paged visits [] (visitRecords.map (visitRow "Nights")) =
      .ok ((visitRecords.map (visitRow "Nights")).take 1) :=
  rfl

private theorem firstNights_extreme_run :
    (firstNights.extreme .descending).run visits [] = .ok (.integer 2) := by
  have hrows : (firstNights.extreme .descending).rows visits [] =
      .ok (visitRecords.map (visitRow "Nights")) := nights_rows (some (.constant (.integer 1)))
  rw [run_eq_page]
  exact bind_eq_ok.mpr ⟨_, bind_eq_ok.mpr ⟨_, hrows, firstNights_paged⟩, rfl⟩

/-- The longest of all visits takes five nights, and the longest one of the first visit alone
takes two. -/
theorem nights_extreme :
    (((nights none).extreme .descending).run visits [] = .ok (.integer 5) ∧
      ((nights none).firstPresent .descending).run visits [] = .ok (.integer 5)) ∧
    (firstNights.extreme .descending).run visits [] = .ok (.integer 2) ∧
      (firstNights.ofPage.firstPresent .descending).run visits [] = .ok (.integer 2) := by
  constructor
  · have hpaged : (nights none).paged visits [] (visitRecords.map (visitRow "Nights")) =
        .ok (visitRecords.map (visitRow "Nights")) := rfl
    obtain ⟨v, hrun, -, -, hunpaged⟩ :=
      run_extreme .descending (nights_rows none) nights_isKey hpaged
    have hvalue : ((nights none).extreme .descending).run visits [] = .ok (.integer 5) := by
      rw [run_eq_page]
      exact bind_eq_ok.mpr ⟨_, bind_eq_ok.mpr ⟨_, nights_rows none, hpaged⟩, rfl⟩
    obtain rfl := Except.ok.inj (hrun.symm.trans hvalue)
    exact ⟨hrun, (hunpaged rfl rfl).2⟩
  · obtain ⟨v, hrun, -, hpage, -⟩ :=
      run_extreme .descending (nights_rows _) nights_isKey firstNights_paged
    obtain rfl := Except.ok.inj (hrun.symm.trans firstNights_extreme_run)
    exact ⟨hrun, hpage⟩

/-- The scopes of the visits whose nights are known. -/
def scopesOfKnownNights : List Scope :=
  [0, 1, 3, 4].map fun n => visitScopes.getD n []

/-- Among the rows that a page is cut out of, the first value need not be the extreme of the
page: the first visit takes two nights, but the longest one takes five. -/
theorem firstNights_extreme_ne_first :
    firstNights.rows visits [] = .ok (visitRecords.map (visitRow "Nights")) ∧
      (∀ row ∈ visitRecords.map (visitRow "Nights"), Value.IsKey .integer row.value) ∧
      (firstNights.extreme .descending).run visits [] = .ok (.integer 2) ∧
      (firstNights.firstPresent .descending).run visits [] = .ok (.integer 5) := by
  refine ⟨nights_rows _, nights_isKey, firstNights_extreme_run, ?_⟩
  have hitems : ((firstNights.firstPresent .descending).source.eval visits [] >>= sourceItems) =
      .ok (visitRecords.map .row) := rfl
  have hfiltered : (firstNights.firstPresent .descending).filtered visits []
      (visitRecords.map .row) = .ok scopesOfKnownNights := rfl
  have hkeys : ∀ scope ∈ scopesOfKnownNights, evalKeys visits (firstNights.firstPresent .descending).order
      scope = .ok (nightsKeys scope) := by
    simp only [scopesOfKnownNights, List.map_cons, List.map_nil, List.forall_mem_cons]
    exact ⟨rfl, rfl, rfl, rfl, List.forall_mem_nil _⟩
  have hsorted : (scopesOfKnownNights.mergeSort fun a b =>
      Value.compareKeys ((firstNights.firstPresent .descending).order.map OrderKey.direction)
        (nightsKeys a) (nightsKeys b) != .gt) =
          [1, 0, 3, 4].map fun n => visitScopes.getD n [] := by
    simp +decide [scopesOfKnownNights, visitScopes, visitRecords, List.mergeSort,
      List.MergeSort.Internal.splitInTwo]
  rw [run_eq, hitems, ok_bind, selected_eq_project, hfiltered, ok_bind, sortScopes_eq hkeys,
    hsorted]
  rfl

end Query

end Hql

end ObjectQuery
