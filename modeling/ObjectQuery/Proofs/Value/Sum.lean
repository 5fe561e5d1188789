import Mathlib.Algebra.BigOperators.Group.List.Basic
import ObjectQuery.Proofs.Engine.Ordering
import ObjectQuery.Proofs.Value.Arithmetic

/-!
# Sums of integers

The sum of a column is made from left to right, and it fails at the first
addition whose result does not fit into a word. So it asks for more than that
the total fits: the sum of every leading part has to. What it returns is then
the total, in whatever order the rows come. Whether it returns anything may
depend on their order.

Some order of the rows can be summed exactly if the total fits, since one can
always go on with a number that leads back towards zero. The order does not
matter exactly if the total does not fit, or the positive numbers have a sum
that fits and so have the negative ones: no leading part goes beyond these.

## Main definitions

* `SumsFit` — every leading part of a list has a sum that fits into a word.
* `Value.integers` — the numbers of a column.

## Main results

* `exists_perm_sumsFit` — a list whose total fits has an order in which it can
  be summed.
* `forall_perm_sumsFit_iff` — the lists that can be summed in every order.
* `Hql.sum_of_integers` — when a column of integers has a sum, and how that
  depends on the order of the rows.
-/

namespace ObjectQuery

open Word64 (Fits fits_iff)

/-! ## Leading parts -/

/-- Added to a number one after the other, the numbers of a list never lead out of the words. -/
def SumsFit (start : Int) (ns : List Int) : Prop :=
  ∀ part, part <+: ns → Fits (start + part.sum)

/-- The sum of the positive numbers of a list. -/
def gain (ns : List Int) : Int :=
  (ns.filter (0 < ·)).sum

/-- The sum of the negative numbers of a list. -/
def loss (ns : List Int) : Int :=
  (ns.filter (· < 0)).sum

variable {start n : Int} {ns part : List Int}

theorem sumsFit_nil : SumsFit start [] ↔ Fits start := by
  simp [SumsFit]

theorem sumsFit_cons : SumsFit start (n :: ns) ↔ Fits start ∧ SumsFit (start + n) ns := by
  constructor
  · intro h
    refine ⟨by simpa using h [] List.nil_prefix, fun part hpart => ?_⟩
    simpa [Int.add_assoc] using h (n :: part) (List.cons_prefix_cons.mpr ⟨rfl, hpart⟩)
  · rintro ⟨hstart, h⟩ part hpart
    rcases List.prefix_cons_iff.mp hpart with rfl | ⟨rest, rfl, hrest⟩
    · simpa using hstart
    · simpa [Int.add_assoc] using h rest hrest

private theorem SumsFit.total (h : SumsFit start ns) : Fits (start + ns.sum) :=
  h ns (List.prefix_refl ns)

theorem gain_cons (n : Int) (ns : List Int) : gain (n :: ns) = max n 0 + gain ns := by
  unfold gain
  by_cases h : 0 < n
  · simp [h, Int.max_eq_left (Int.le_of_lt h)]
  · simp [h, Int.max_eq_right (Int.not_lt.mp h)]

theorem loss_cons (n : Int) (ns : List Int) : loss (n :: ns) = min n 0 + loss ns := by
  unfold loss
  by_cases h : n < 0
  · simp [h, Int.min_eq_left (Int.le_of_lt h)]
  · simp [h, Int.min_eq_right (Int.not_lt.mp h)]

theorem gain_eq_zero (h : ∀ n ∈ ns, n ≤ 0) : gain ns = 0 := by
  rw [gain, List.filter_eq_nil_iff.mpr fun n hn => by simpa using h n hn, List.sum_nil]

theorem loss_eq_zero (h : ∀ n ∈ ns, 0 ≤ n) : loss ns = 0 := by
  rw [loss, List.filter_eq_nil_iff.mpr fun n hn => by simpa using h n hn, List.sum_nil]

/-- A leading part has a sum between those of the negative and of the positive numbers. -/
theorem sum_mem_of_prefix (h : part <+: ns) : loss ns ≤ part.sum ∧ part.sum ≤ gain ns := by
  induction ns generalizing part with
  | nil =>
      rw [List.prefix_nil.mp h]
      exact ⟨Int.le_refl 0, Int.le_refl 0⟩
  | cons n ns ih =>
      rw [gain_cons, loss_cons]
      rcases List.prefix_cons_iff.mp h with rfl | ⟨rest, rfl, hrest⟩
      · have hnil := ih (List.nil_prefix (l := ns))
        rw [List.sum_nil] at hnil ⊢
        omega
      · have hbounds := ih hrest
        rw [List.sum_cons]
        omega

/-! ## Orders -/

/-- If the total fits, some number can be added first. -/
theorem exists_next (hne : ns ≠ []) (hns : ∀ n ∈ ns, Fits n) (hstart : Fits start)
    (htotal : Fits (start + ns.sum)) : ∃ n ∈ ns, Fits (start + n) := by
  obtain ⟨first, rest, rfl⟩ := List.exists_cons_of_ne_nil hne
  have hrest := sum_mem_of_prefix (List.prefix_refl rest)
  rw [List.sum_cons] at htotal
  simp only [fits_iff] at *
  rcases Int.le_total start 0 with hle | hge
  · by_cases hback : ∃ n ∈ first :: rest, 0 ≤ n
    · obtain ⟨n, hn, hnonneg⟩ := hback
      exact ⟨n, hn, by have := hns n hn; omega⟩
    · -- all numbers are negative, and so the total is beyond the first step
      simp only [not_exists, not_and, Int.not_le, List.forall_mem_cons] at hback
      have hgain := gain_eq_zero fun n hn => Int.le_of_lt (hback.2 n hn)
      exact ⟨first, List.mem_cons_self, by omega⟩
  · by_cases hback : ∃ n ∈ first :: rest, n ≤ 0
    · obtain ⟨n, hn, hnonpos⟩ := hback
      exact ⟨n, hn, by have := hns n hn; omega⟩
    · simp only [not_exists, not_and, Int.not_le, List.forall_mem_cons] at hback
      have hloss := loss_eq_zero fun n hn => Int.le_of_lt (hback.2 n hn)
      exact ⟨first, List.mem_cons_self, by omega⟩

/-- A list whose total fits has an order in which it can be summed. -/
theorem exists_perm_sumsFit (hns : ∀ n ∈ ns, Fits n) (hstart : Fits start)
    (htotal : Fits (start + ns.sum)) : ∃ order, order.Perm ns ∧ SumsFit start order := by
  induction hlength : ns.length generalizing ns start with
  | zero =>
      obtain rfl := List.eq_nil_of_length_eq_zero hlength
      exact ⟨[], .refl _, sumsFit_nil.mpr hstart⟩
  | succ length ih =>
      obtain ⟨n, hn, hnext⟩ :=
        exists_next (List.ne_nil_of_length_eq_add_one hlength) hns hstart htotal
      have hperm := List.perm_cons_erase hn
      have hrest : ∀ m ∈ ns.erase n, Fits m := fun m hm => hns m (List.mem_of_mem_erase hm)
      rw [hperm.sum_eq, List.sum_cons, ← Int.add_assoc] at htotal
      obtain ⟨order, horder, hfit⟩ := ih hrest hnext htotal
        (by rw [List.length_erase_of_mem hn, hlength, Nat.add_sub_cancel])
      exact ⟨n :: order, (horder.cons n).trans hperm.symm, sumsFit_cons.mpr ⟨hstart, hfit⟩⟩

/-- A list can be summed in every order exactly if its positive numbers have a sum that fits
and its negative ones have one. -/
theorem forall_perm_sumsFit_iff :
    (∀ order : List Int, order.Perm ns → SumsFit 0 order) ↔ Fits (gain ns) ∧ Fits (loss ns) := by
  constructor
  · intro h
    -- the positive numbers may come first, and so may the negative ones
    have hpositive := h _ (List.filter_append_perm (fun n => decide (0 < n)) ns) _
      (List.prefix_append ..)
    have hnegative := h _ (List.filter_append_perm (fun n => decide (n < 0)) ns) _
      (List.prefix_append ..)
    rw [Int.zero_add] at hpositive hnegative
    exact ⟨hpositive, hnegative⟩
  · rintro ⟨hgain, hloss⟩ order horder part hpart
    have hsame : gain order = gain ns ∧ loss order = loss ns :=
      ⟨(horder.filter _).sum_eq, (horder.filter _).sum_eq⟩
    have hbounds := sum_mem_of_prefix hpart
    rw [fits_iff] at hgain hloss ⊢
    omega

/-! ## Columns -/

namespace Value

/-- The numbers of a column, in order. -/
def integers (column : List Value) : List Int :=
  column.filterMap whole?

/-- The exact sum of numbers; there is none of no numbers. -/
def exactSum? : List Int → Option Int
  | [] => none
  | n :: ns => some (n + ns.sum)

variable {column : List Value} {v : Value}

/-- What is left of a column of integers and nulls are words. -/
theorem exists_words (h : ∀ v ∈ column, IsKey .integer v) :
    ∃ ws : List Int64, presentOnly column = ws.map .integer ∧
      integers column = ws.map Int64.toInt := by
  induction column with
  | nil => exact ⟨[], rfl, rfl⟩
  | cons v rest ih =>
      obtain ⟨hv, hrest⟩ := List.forall_mem_cons.mp h
      obtain ⟨ws, hpresent, hintegers⟩ := ih hrest
      cases hv with
      | null => exact ⟨ws, hpresent, hintegers⟩
      | integer w =>
          exact ⟨w :: ws, congrArg (Value.integer w :: ·) hpresent,
            congrArg (w.toInt :: ·) hintegers⟩

private theorem fits_of_mem_integers {n : Int} (h : n ∈ integers column) : Fits n := by
  obtain ⟨v, -, hv⟩ := List.mem_filterMap.mp h
  cases v with
  | integer w =>
      obtain rfl := Option.some.inj hv
      exact Word64.fits_toInt w
  | null | boolean | decimal | string | row | list => cases hv

/-- The first addition of a sum that leads out of the words. -/
def OverflowsAt (start : Int) (ns : List Int) (operation : Overflow) : Prop :=
  ∃ before n, before ++ [n] <+: ns ∧ SumsFit start before ∧ ¬Fits (start + before.sum + n) ∧
    operation = .arithmetic .add (Int64.ofInt (start + before.sum)) (Int64.ofInt n)

variable {operation : Overflow}

theorem OverflowsAt.not_sumsFit (h : OverflowsAt start ns operation) : ¬SumsFit start ns := by
  obtain ⟨before, n, hprefix, -, hfits, -⟩ := h
  intro hsums
  apply hfits
  simpa [Int.add_assoc] using hsums _ hprefix

theorem OverflowsAt.cons (hstart : Fits start) (h : OverflowsAt (start + n) ns operation) :
    OverflowsAt start (n :: ns) operation := by
  obtain ⟨before, last, hprefix, hsums, hfits, rfl⟩ := h
  refine ⟨n :: before, last, List.cons_prefix_cons.mpr ⟨rfl, hprefix⟩,
    sumsFit_cons.mpr ⟨hstart, hsums⟩, ?_⟩
  rw [List.sum_cons, ← Int.add_assoc]
  exact ⟨hfits, rfl⟩

/-- Adding words to a word gives the exact sum, or overflows at the first addition that leads out
of the words. -/
theorem foldlM_add (a : Int64) (ws : List Int64) :
    (SumsFit a.toInt (ws.map Int64.toInt) ∧ ∃ w : Int64,
      w.toInt = a.toInt + (ws.map Int64.toInt).sum ∧
        (ws.map integer).foldlM (arithmetic .add) (.integer a) = .ok (.integer w)) ∨
    ∃ operation, OverflowsAt a.toInt (ws.map Int64.toInt) operation ∧
      (ws.map integer).foldlM (arithmetic .add) (.integer a) = .error (.overflow operation) := by
  induction ws generalizing a with
  | nil => exact .inl ⟨sumsFit_nil.mpr (Word64.fits_toInt a), a, by simp, rfl⟩
  | cons w ws ih =>
      have hstep : arithmetic .add (.integer a) (.integer w) =
        orOverflow (.arithmetic .add a w) (Word64.exactly? (a.toInt + w.toInt)) := rfl
      simp only [List.map_cons, List.foldlM_cons, hstep, sumsFit_cons, List.sum_cons]
      by_cases h : Fits (a.toInt + w.toInt)
      · obtain ⟨sum, hsum, hexact⟩ := Word64.exactly?_of_fits h
        rw [hsum, ← hexact, ← Int.add_assoc, ← hexact]
        rcases ih sum with ⟨hsums, total, htotal, hrun⟩ | ⟨operation, hoverflows, hrun⟩
        · exact .inl ⟨⟨Word64.fits_toInt a, hsums⟩, total, htotal, hrun⟩
        · exact .inr ⟨operation, .cons (Word64.fits_toInt a) (hexact ▸ hoverflows), hrun⟩
      · rw [Word64.exactly?_of_not_fits h]
        refine .inr ⟨_, ⟨[], w.toInt, ?_, sumsFit_nil.mpr (Word64.fits_toInt a), ?_, ?_⟩, rfl⟩
        · exact List.cons_prefix_cons.mpr ⟨rfl, List.nil_prefix⟩
        · simpa using h
        · simp

/-- A column of integers and nulls has its exact sum, or overflows at the first addition that
leads out of the words. -/
theorem sum_computes (h : ∀ v ∈ column, IsKey .integer v) :
    (SumsFit 0 (integers column) ∧ ∃ v, sum column = .ok v ∧
      Computes (exactSum? (integers column)) (.ok v)) ∨
    ∃ operation, OverflowsAt 0 (integers column) operation ∧
      sum column = .error (.overflow operation) := by
  obtain ⟨ws, hpresent, hintegers⟩ := exists_words h
  have hzero : Fits 0 := by decide
  rw [hintegers, sum, hpresent]
  cases ws with
  | nil => exact .inl ⟨sumsFit_nil.mpr hzero, .null, rfl, .null⟩
  | cons w ws =>
      have hstart : 0 + w.toInt = w.toInt := Int.zero_add _
      rw [List.map_cons, List.map_cons, exactSum?]
      rcases foldlM_add w ws with ⟨hsums, total, htotal, hrun⟩ | ⟨operation, hoverflows, hrun⟩
      · exact .inl ⟨sumsFit_cons.mpr ⟨hzero, hstart.symm ▸ hsums⟩, _, hrun, htotal ▸ .integer total⟩
      · exact .inr ⟨operation, .cons hzero (hstart.symm ▸ hoverflows), hrun⟩

private theorem sum_eq_ok_iff (h : ∀ v ∈ column, IsKey .integer v) :
    sum column = .ok v ↔
      SumsFit 0 (integers column) ∧ Computes (exactSum? (integers column)) (.ok v) := by
  rcases sum_computes h with ⟨hsums, total, hrun, hexact⟩ | ⟨operation, hoverflows, hrun⟩
  · rw [hrun, Except.ok.injEq]
    constructor
    · rintro rfl
      exact ⟨hsums, hexact⟩
    · rintro ⟨-, hv⟩
      exact hexact.eq hv
  · rw [hrun]
    exact iff_of_false nofun fun hv => hoverflows.not_sumsFit hv.1

private theorem exactSum?_perm {ms : List Int} (h : ms.Perm ns) : exactSum? ms = exactSum? ns := by
  cases ms with
  | nil => rw [h.nil_eq]
  | cons m ms =>
      cases ns with
      | nil => exact absurd h.eq_nil (List.cons_ne_nil m ms)
      | cons n ns => exact congrArg some h.sum_eq

end Value

/-! ## Rows -/

/-- What a partial function makes of a list can be brought into every order by an order of the
list. -/
theorem exists_perm_filterMap {α β : Type} {f : α → Option β} {as : List α} {bs : List β}
    (h : bs.Perm (as.filterMap f)) : ∃ order : List α, order.Perm as ∧ order.filterMap f = bs := by
  induction bs generalizing as with
  | nil => exact ⟨as, .refl as, h.nil_eq.symm⟩
  | cons b bs ih =>
      obtain ⟨a, ha, hb⟩ := List.mem_filterMap.mp (h.mem_iff.mp List.mem_cons_self)
      obtain ⟨before, after, rfl⟩ := List.append_of_mem ha
      have hmiddle : (before ++ a :: after).Perm (a :: (before ++ after)) := List.perm_middle
      have hrest : bs.Perm ((before ++ after).filterMap f) := by
        have hcons := h.trans (hmiddle.filterMap f)
        rw [List.filterMap_cons_some hb] at hcons
        exact hcons.cons_inv
      obtain ⟨order, horder, hmap⟩ := ih hrest
      refine ⟨a :: order, (horder.cons a).trans hmiddle.symm, ?_⟩
      rw [List.filterMap_cons_some hb, hmap]

namespace Hql

open Value (IsKey Computes exactSum? OverflowsAt)

/-- The numbers among the values of several rows, in order. -/
def numbers (rows : List Row) : List Int :=
  Value.integers (rows.map Row.value)

variable {rows others : List Row} {env : Environment} {outer : Scope}

private theorem numbers_perm (h : others.Perm rows) : (numbers others).Perm (numbers rows) :=
  (h.map Row.value).filterMap _

/-- Every order of the numbers is that of an order of the rows. -/
theorem exists_perm_numbers {order : List Int} (h : order.Perm (numbers rows)) :
    ∃ others : List Row, others.Perm rows ∧ numbers others = order := by
  unfold numbers Value.integers at h ⊢
  rw [List.filterMap_map] at h
  obtain ⟨others, hothers, hmap⟩ := exists_perm_filterMap h
  exact ⟨others, hothers, by rw [List.filterMap_map, hmap]⟩

/-- Of a column of integers and nulls, the sum is the exact one, if the sum of every leading part
fits. -/
theorem runAggregate_sum_eq_ok_iff (h : ∀ row ∈ rows, IsKey .integer row.value) {v : Value} :
    runAggregate env (some .sum) rows outer = .ok v ↔
      SumsFit 0 (numbers rows) ∧ Computes (exactSum? (numbers rows)) (.ok v) := by
  rw [runAggregate]
  exact Value.sum_eq_ok_iff (List.forall_mem_map.mpr h)

private theorem exists_sum_iff (h : ∀ row ∈ rows, IsKey .integer row.value) :
    (∃ v, runAggregate env (some .sum) rows outer = .ok v) ↔ SumsFit 0 (numbers rows) := by
  rw [runAggregate]
  rcases Value.sum_computes (List.forall_mem_map.mpr h) with
    ⟨hsums, v, hrun, -⟩ | ⟨operation, hoverflows, hrun⟩
  · exact iff_of_true ⟨v, hrun⟩ hsums
  · rw [hrun]
    exact iff_of_false nofun hoverflows.not_sumsFit

/-- Two orders of the rows that both have a sum have the same one. -/
theorem sum_eq_of_perm (h : ∀ row ∈ rows, IsKey .integer row.value) (hperm : others.Perm rows)
    {v w : Value} (hv : runAggregate env (some .sum) others outer = .ok v)
    (hw : runAggregate env (some .sum) rows outer = .ok w) : v = w := by
  rw [runAggregate_sum_eq_ok_iff h] at hw
  rw [runAggregate_sum_eq_ok_iff fun row hrow => h row (hperm.mem_iff.mp hrow),
    Value.exactSum?_perm (numbers_perm hperm)] at hv
  exact hv.2.eq hw.2

/-- Some order of the rows has a sum exactly if the total fits. -/
theorem exists_perm_sum_iff (env : Environment) (outer : Scope)
    (h : ∀ row ∈ rows, IsKey .integer row.value) :
    (∃ others : List Row, others.Perm rows ∧
      ∃ v, runAggregate env (some .sum) others outer = .ok v) ↔ Fits (numbers rows).sum := by
  constructor
  · rintro ⟨others, hperm, hsum⟩
    rw [exists_sum_iff fun row hrow => h row (hperm.mem_iff.mp hrow)] at hsum
    have htotal := hsum.total
    rwa [Int.zero_add, (numbers_perm hperm).sum_eq] at htotal
  · intro htotal
    rw [← Int.zero_add (numbers rows).sum] at htotal
    obtain ⟨order, horder, hsums⟩ := exists_perm_sumsFit
      (fun n hn => Value.fits_of_mem_integers hn) (by decide) htotal
    obtain ⟨others, hperm, rfl⟩ := exists_perm_numbers horder
    exact ⟨others, hperm,
      (exists_sum_iff fun row hrow => h row (hperm.mem_iff.mp hrow)).mpr hsums⟩

/-- Every order of the rows has a sum exactly if the positive numbers have a sum that fits, and
the negative ones have one. -/
theorem forall_perm_sum_iff (env : Environment) (outer : Scope)
    (h : ∀ row ∈ rows, IsKey .integer row.value) :
    (∀ others : List Row, others.Perm rows →
      ∃ v, runAggregate env (some .sum) others outer = .ok v) ↔
      Fits (gain (numbers rows)) ∧ Fits (loss (numbers rows)) := by
  rw [← forall_perm_sumsFit_iff]
  constructor
  · intro hall order horder
    obtain ⟨others, hperm, rfl⟩ := exists_perm_numbers horder
    exact (exists_sum_iff fun row hrow => h row (hperm.mem_iff.mp hrow)).mp (hall others hperm)
  · intro hall others hperm
    exact (exists_sum_iff fun row hrow => h row (hperm.mem_iff.mp hrow)).mpr
      (hall _ (numbers_perm hperm))

/-- The sum of a column of integers and nulls is the exact sum, or null where there is no integer,
and it exists exactly if the sum of every leading part fits into a word. Otherwise it overflows
at the first addition that leads out of the words. Some order of the rows has a sum exactly
if the total fits. The outcome is the same for every order exactly if the total does not fit,
or both the positive and the negative numbers have a sum that fits. -/
theorem sum_of_integers (h : ∀ row ∈ rows, IsKey .integer row.value) :
    (∀ v, runAggregate env (some .sum) rows outer = .ok v ↔
      SumsFit 0 (numbers rows) ∧ Computes (exactSum? (numbers rows)) (.ok v)) ∧
    (∀ e, runAggregate env (some .sum) rows outer = .error e →
      ∃ operation, e = .overflow operation ∧ OverflowsAt 0 (numbers rows) operation) ∧
    ((∃ others : List Row, others.Perm rows ∧
      ∃ v, runAggregate env (some .sum) others outer = .ok v) ↔ Fits (numbers rows).sum) ∧
    ((∀ others : List Row, others.Perm rows →
      (runAggregate env (some .sum) others outer).toOption =
        (runAggregate env (some .sum) rows outer).toOption) ↔
      (Fits (numbers rows).sum → Fits (gain (numbers rows)) ∧ Fits (loss (numbers rows)))) := by
  refine ⟨fun v => runAggregate_sum_eq_ok_iff h, fun e he => ?_, exists_perm_sum_iff env outer h, ?_⟩
  · rw [runAggregate] at he
    rcases Value.sum_computes (List.forall_mem_map.mpr h) with
      ⟨-, v, hrun, -⟩ | ⟨operation, hoverflows, hrun⟩
    · rw [hrun] at he
      cases he
    · rw [hrun] at he
      exact ⟨operation, (Except.error.inj he).symm, hoverflows⟩
  · rw [← exists_perm_sum_iff env outer h, ← forall_perm_sum_iff env outer h]
    constructor
    · rintro hsame ⟨others, hperm, v, hv⟩ further hfurther
      refine ⟨v, toOption_eq_some.mp ?_⟩
      rw [hsame further hfurther, ← hsame others hperm, hv, toOption_ok]
    · intro hall others hperm
      by_cases hsum : ∃ others : List Row, others.Perm rows ∧
          ∃ v, runAggregate env (some .sum) others outer = .ok v
      · obtain ⟨v, hv⟩ := hall hsum others hperm
        obtain ⟨w, hw⟩ := hall hsum rows (.refl rows)
        rw [hv, hw, sum_eq_of_perm h hperm hv hw]
      · have hnone : ∀ others : List Row, others.Perm rows →
            (runAggregate env (some .sum) others outer).toOption = none := by
          intro others hperm
          refine Option.eq_none_iff_forall_ne_some.mpr fun v hv => ?_
          exact hsum ⟨others, hperm, v, toOption_eq_some.mp hv⟩
        rw [hnone others hperm, hnone rows (.refl rows)]

/-! ## Near the greatest word -/

/-- A query for the sum of all balances. -/
def sumOfBalances : Query :=
  { Query.ofSource (.entity "Account") "a" with
    select := some (.dot (.ident "a") "Balance")
    aggregate := some .sum }

/-- Accounts with the given balances. -/
def accounts (balances : List Int) : Environment :=
  ⟨⟨[("Account", balances.map fun n => [("Balance", .integer n)])]⟩, []⟩

/-- Added to the greatest word first, one leads out of the words, though the total is the
greatest word. Added last, it does not. -/
theorem sumOfBalances_order :
    [Int64.maxValue.toInt, -1, 1].Perm [Int64.maxValue.toInt, 1, -1] ∧
      [Int64.maxValue.toInt, 1, -1].sum = Int64.maxValue.toInt ∧
      sumOfBalances.execute (accounts [Int64.maxValue.toInt, 1, -1]) =
        .error (.overflow (.arithmetic .add Int64.maxValue 1)) ∧
      sumOfBalances.execute (accounts [Int64.maxValue.toInt, -1, 1]) =
        .ok (.integer Int64.maxValue) := by
  refine ⟨.cons _ (.swap ..), by decide, ?_, ?_⟩
  all_goals
    rw [Query.execute, Query.run_eq]
    simp only [sumOfBalances, accounts, Query.ofSource, Query.selected, sortScopes_nil]
    rfl

/-- Rows with the greatest word, null, one and minus one. -/
def balanceRows : List Row :=
  [.integer Int64.maxValue, .null, .integer 1, .integer (-1)].map fun v => ⟨v, []⟩

/-- In this order the rows have no sum. In another one they have. -/
theorem balanceRows_sum :
    (¬∃ v, runAggregate (accounts []) (some .sum) balanceRows [] = .ok v) ∧
      (∃ others : List Row, others.Perm balanceRows ∧
        ∃ v, runAggregate (accounts []) (some .sum) others [] = .ok v) ∧
      ¬∀ others : List Row, others.Perm balanceRows →
        (runAggregate (accounts []) (some .sum) others []).toOption =
          (runAggregate (accounts []) (some .sum) balanceRows []).toOption := by
  have hkinds : ∀ row ∈ balanceRows, IsKey .integer row.value := by
    simp only [balanceRows, List.map_cons, List.map_nil, List.forall_mem_cons]
    exact ⟨.integer _, .null _, .integer _, .integer _, List.forall_mem_nil _⟩
  obtain ⟨hsum, -, hsome, hsame⟩ := @sum_of_integers balanceRows (accounts []) [] hkinds
  refine ⟨?_, hsome.mpr (by decide), fun hall => absurd (hsame.mp hall) (by decide)⟩
  rintro ⟨v, hv⟩
  have hfits := ((hsum v).mp hv).1 [Int64.maxValue.toInt, 1] (by decide)
  exact absurd hfits (by decide)

end Hql

end ObjectQuery
