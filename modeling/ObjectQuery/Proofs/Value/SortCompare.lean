import ObjectQuery.Proofs.Decimal.Order

/-!
# The order in which values are sorted

Values have an order within three families: texts, truth values and numbers.
Null comes before everything else, and two values that have no order between
them count as equal. The comparison turns round when its sides are exchanged,
whatever the values. It is transitive only within a family: a value of
another family is equal to everything in it, and so ties values that are not
equal. Among numbers there is one more exception, since an integer is
compared with a decimal as the double nearest to it. A decimal may be equal
to several integers.

## Main definitions

* `family?` — the family of a value.
* `SortsConsistently` — the order is transitive on the values of a column.

## Main results

* `sortCompare_swap` — exchanging the sides turns the comparison round.
* `sortsConsistently_iff` — the columns on which the order is transitive.
-/

namespace ObjectQuery.Value

open Decimal (Place comparePlaces compareFloats?_eq place?_toDouble integerPlace integerPlace_mono)

/-! ## Families -/

/-- The families of values that have an order. -/
inductive Family where
  | text
  | truth
  | number
  deriving DecidableEq

/-- The place of a number among the doubles. -/
def place? (v : Value) : Option Place :=
  v.number? >>= Decimal.place?

/-- The family of a value. Null, rows, lists and NaN belong to none. -/
def family? : Value → Option Family
  | .string _ => some .text
  | .boolean _ => some .truth
  | v => v.place?.map fun _ => .number

theorem place?_integer (n : Int64) : (integer n).place? = some (integerPlace n.toInt) :=
  place?_toDouble n

/-- The order of two places, if there are two. -/
def comparePlaces? (x y : Option Place) : Option Ordering := do
  return comparePlaces (← x) (← y)

private theorem comparePlaces?_swap (x y : Option Place) :
    comparePlaces? y x = (comparePlaces? x y).map Ordering.swap := by
  cases x with
  | none => cases y <;> rfl
  | some p =>
      cases y with
      | none => rfl
      | some q => exact congrArg some Std.OrientedCmp.eq_swap

/-- Except between two integers, two texts or two truth values, values compare as the places
of numbers. -/
theorem compare?_eq (a b : Value) :
    a.compare? b =
      match a, b with
      | .integer m, .integer n => some (compare m n)
      | .string s, .string t => some (compare s t)
      | .boolean a, .boolean b => some (compare a b)
      | a, b => comparePlaces? a.place? b.place? := by
  have hplaces : ∀ x y : Option Float,
      (do Value.compareFloats? (← x) (← y)) =
        comparePlaces? (x >>= Decimal.place?) (y >>= Decimal.place?) := by
    intro x y
    cases x with
    | none => rfl
    | some x =>
        cases y with
        | none =>
            show none = comparePlaces? (Decimal.place? x) none
            cases Decimal.place? x <;> rfl
        | some y => exact compareFloats?_eq x y
  cases a <;> cases b <;>
    first
    | rfl
    | exact hplaces _ _

/-- Exchanging the sides turns the order of queries round. -/
theorem compare?_swap (a b : Value) : b.compare? a = (a.compare? b).map Ordering.swap := by
  rw [compare?_eq, compare?_eq]
  cases a <;> cases b <;>
    first
    | exact comparePlaces?_swap _ _
    | exact congrArg some Std.OrientedCmp.eq_swap

private theorem family?_eq_text_iff {v : Value} : v.family? = some .text ↔ ∃ s, v = .string s := by
  cases v <;> simp [family?]

private theorem family?_eq_truth_iff {v : Value} :
    v.family? = some .truth ↔ ∃ b, v = .boolean b := by
  cases v <;> simp [family?]

theorem family?_eq_number_iff {v : Value} : v.family? = some .number ↔ ∃ p, v.place? = some p := by
  cases v <;> simp [family?, place?, number?]

/-- Two numbers compare as their places, unless both are integers. -/
theorem compare?_of_places {a b : Value} {p q : Place} (ha : a.place? = some p)
    (hb : b.place? = some q) :
    (∃ m n, a = .integer m ∧ b = .integer n) ∨ a.compare? b = some (comparePlaces p q) := by
  rw [compare?_eq]
  split
  · exact .inl ⟨_, _, rfl, rfl⟩
  · cases ha
  · cases ha
  · rw [ha, hb]
    exact .inr rfl

/-- Values have an order exactly within a family. -/
theorem compare?_isSome_iff (a b : Value) :
    (a.compare? b).isSome = true ↔ ∃ family, a.family? = some family ∧ b.family? = some family := by
  constructor
  · rw [compare?_eq]
    split
    · exact fun _ => ⟨.number, family?_eq_number_iff.mpr ⟨_, place?_integer _⟩,
        family?_eq_number_iff.mpr ⟨_, place?_integer _⟩⟩
    · exact fun _ => ⟨.text, rfl, rfl⟩
    · exact fun _ => ⟨.truth, rfl, rfl⟩
    · intro h
      cases ha : a.place? with
      | none => rw [ha] at h; cases h
      | some p =>
          cases hb : b.place? with
          | none => rw [ha, hb] at h; cases h
          | some q =>
              exact ⟨.number, family?_eq_number_iff.mpr ⟨p, ha⟩, family?_eq_number_iff.mpr ⟨q, hb⟩⟩
  · rintro ⟨family, ha, hb⟩
    cases family with
    | text =>
        obtain ⟨s, rfl⟩ := family?_eq_text_iff.mp ha
        obtain ⟨t, rfl⟩ := family?_eq_text_iff.mp hb
        rfl
    | truth =>
        obtain ⟨s, rfl⟩ := family?_eq_truth_iff.mp ha
        obtain ⟨t, rfl⟩ := family?_eq_truth_iff.mp hb
        rfl
    | number =>
        obtain ⟨p, hp⟩ := family?_eq_number_iff.mp ha
        obtain ⟨q, hq⟩ := family?_eq_number_iff.mp hb
        rcases compare?_of_places hp hq with ⟨m, n, rfl, rfl⟩ | h
        · rfl
        · rw [h]
          rfl

/-! ## Sorting -/

/-- Exchanging the sides turns the order in which values are sorted round. -/
theorem sortCompare_swap (a b : Value) : b.sortCompare a = (a.sortCompare b).swap := by
  unfold sortCompare
  cases a.isNull <;> cases b.isNull <;> try rfl
  rw [compare?_swap a b]
  cases a.compare? b <;> rfl

private theorem sortCompare_integer (m n : Int64) :
    (integer m).sortCompare (integer n) = compare m n := rfl

private theorem sortCompare_string (s t : String) :
    (string s).sortCompare (string t) = compare s t := rfl

private theorem sortCompare_boolean (a b : Bool) :
    (boolean a).sortCompare (boolean b) = compare a b := rfl

variable {a b c : Value}

private theorem sortCompare_of_isNull (ha : a.isNull = true) : (a.sortCompare b).isLE = true := by
  unfold sortCompare
  rw [ha]
  cases b.isNull <;> rfl

/-- Only null is not after null. -/
theorem isNull_of_isLE (h : (a.sortCompare b).isLE = true) (hb : b.isNull = true) :
    a.isNull = true := by
  unfold sortCompare at h
  rw [hb] at h
  cases ha : a.isNull with
  | true => rfl
  | false =>
      rw [ha] at h
      cases h

private theorem sortCompare_of_not_isNull (ha : a.isNull = false) (hb : b.isNull = false) :
    a.sortCompare b = (a.compare? b).getD .eq := by
  unfold sortCompare
  rw [ha, hb]

/-- Values of different families, and values of none, are tied. -/
theorem sortCompare_of_family?_ne (ha : a.isNull = false) (hb : b.isNull = false) {family : Family}
    (hfamily : a.family? = some family) (hother : b.family? ≠ some family) :
    a.sortCompare b = .eq := by
  have hnone : a.compare? b = none := by
    rw [← Option.not_isSome_iff_eq_none, compare?_isSome_iff]
    rintro ⟨shared, hshared, hb⟩
    rw [hfamily] at hshared
    exact hother (hshared ▸ hb)
  rw [sortCompare_of_not_isNull ha hb, hnone]
  rfl

/-- One of two values is not after the other. -/
theorem isLE_total (a b : Value) :
    (a.sortCompare b).isLE = true ∨ (b.sortCompare a).isLE = true := by
  rw [sortCompare_swap a b]
  cases a.sortCompare b with
  | lt => exact .inl rfl
  | eq => exact .inl rfl
  | gt => exact .inr rfl

private theorem eq_of_isLE_of_isLE_swap {o : Ordering} (h : o.isLE = true)
    (hswap : o.swap.isLE = true) :
    o = .eq := by
  cases o with
  | eq => rfl
  | lt => cases hswap
  | gt => cases h

/-! ## Within a family -/

private theorem isNull_of_family? {v : Value} {family : Family} (h : v.family? = some family) :
    v.isNull = false := by
  cases v <;> first | rfl | cases h

/-- Two numbers are sorted by their places, unless both are integers. -/
theorem sortCompare_of_places {p q : Place} (ha : a.place? = some p) (hb : b.place? = some q) :
    (∃ m n, a = integer m ∧ b = integer n) ∨ a.sortCompare b = comparePlaces p q := by
  refine (compare?_of_places ha hb).imp_right fun hcompare => ?_
  rw [sortCompare_of_not_isNull (isNull_of_family? (family?_eq_number_iff.mpr ⟨p, ha⟩))
    (isNull_of_family? (family?_eq_number_iff.mpr ⟨q, hb⟩)), hcompare]
  rfl

/-- The places of two numbers keep their order. -/
theorem comparePlaces_of_isLE {p q : Place} (ha : a.place? = some p) (hb : b.place? = some q)
    (h : (a.sortCompare b).isLE = true) : (comparePlaces p q).isLE = true := by
  rcases sortCompare_of_places ha hb with ⟨m, n, rfl, rfl⟩ | heq
  · -- the double nearest to an integer keeps the order of integers
    rw [place?_integer, Option.some.injEq] at ha hb
    rw [← ha, ← hb]
    exact integerPlace_mono (Int64.le_iff_toInt_le.mp (Std.isLE_compare.mp h))
  · rw [← heq]
    exact h

/-- The order of numbers is transitive, unless a decimal between two integers is equal to
both. -/
theorem isLE_trans_of_places {p q r : Place} (ha : a.place? = some p) (hb : b.place? = some q)
    (hc : c.place? = some r)
    (hseparates : ∀ m n x, a = integer m → b = decimal x → c = integer n →
      a.sortCompare b = .eq → b.sortCompare c = .eq → m = n)
    (hab : (a.sortCompare b).isLE = true) (hbc : (b.sortCompare c).isLE = true) :
    (a.sortCompare c).isLE = true := by
  have hpq := comparePlaces_of_isLE ha hb hab
  have hqr := comparePlaces_of_isLE hb hc hbc
  rcases sortCompare_of_places ha hc with ⟨m, n, rfl, rfl⟩ | heq
  · rcases isLE_total (integer m) (integer n) with hle | hge
    · exact hle
    · -- the doubles of both integers are equal to the place between them
      have hrp := comparePlaces_of_isLE hc ha hge
      have hswap : ∀ p q, (comparePlaces p q).swap = comparePlaces q p :=
        fun _ _ => Std.OrientedCmp.eq_swap.symm
      have htie : comparePlaces p q = .eq :=
        eq_of_isLE_of_isLE_swap hpq (hswap p q ▸ Std.TransCmp.isLE_trans hqr hrp)
      have htie' : comparePlaces q r = .eq :=
        eq_of_isLE_of_isLE_swap hqr (hswap q r ▸ Std.TransCmp.isLE_trans hrp hpq)
      cases b with
      | integer k =>
          rw [sortCompare_integer] at hab hbc ⊢
          exact Std.TransCmp.isLE_trans hab hbc
      | decimal x =>
          rcases sortCompare_of_places ha hb with ⟨_, _, _, hb⟩ | hmx
          · cases hb
          · rcases sortCompare_of_places hb hc with ⟨_, _, hb, _⟩ | hxn
            · cases hb
            · obtain rfl := hseparates m n x rfl rfl rfl (hmx.trans htie) (hxn.trans htie')
              exact hge
      | null | boolean | string | row | list => cases hb
  · rw [heq]
    exact Std.TransCmp.isLE_trans hpq hqr

/-- Within a family the order is transitive, unless a decimal between two integers is equal to
both. -/
theorem isLE_trans_of_family {family : Family} (ha : a.family? = some family)
    (hb : b.family? = some family) (hc : c.family? = some family)
    (hseparates : ∀ m n x, a = integer m → b = decimal x → c = integer n →
      a.sortCompare b = .eq → b.sortCompare c = .eq → m = n)
    (hab : (a.sortCompare b).isLE = true) (hbc : (b.sortCompare c).isLE = true) :
    (a.sortCompare c).isLE = true := by
  cases family with
  | text =>
      obtain ⟨s, rfl⟩ := family?_eq_text_iff.mp ha
      obtain ⟨t, rfl⟩ := family?_eq_text_iff.mp hb
      obtain ⟨u, rfl⟩ := family?_eq_text_iff.mp hc
      rw [sortCompare_string] at hab hbc ⊢
      exact Std.TransCmp.isLE_trans hab hbc
  | truth =>
      obtain ⟨s, rfl⟩ := family?_eq_truth_iff.mp ha
      obtain ⟨t, rfl⟩ := family?_eq_truth_iff.mp hb
      obtain ⟨u, rfl⟩ := family?_eq_truth_iff.mp hc
      rw [sortCompare_boolean] at hab hbc ⊢
      exact Std.TransCmp.isLE_trans hab hbc
  | number =>
      obtain ⟨p, hp⟩ := family?_eq_number_iff.mp ha
      obtain ⟨q, hq⟩ := family?_eq_number_iff.mp hb
      obtain ⟨r, hr⟩ := family?_eq_number_iff.mp hc
      exact isLE_trans_of_places hp hq hr hseparates hab hbc

/-! ## Columns -/

/-- On the values of a column the order is transitive, and so are ties. -/
structure SortsConsistently (column : List Value) : Prop where
  le_trans : ∀ a ∈ column, ∀ b ∈ column, ∀ c ∈ column, (a.sortCompare b).isLE = true →
    (b.sortCompare c).isLE = true → (a.sortCompare c).isLE = true
  tie_trans : ∀ a ∈ column, ∀ b ∈ column, ∀ c ∈ column, a.sortCompare b = .eq →
    b.sortCompare c = .eq → a.sortCompare c = .eq

/-- No two values of a column that are not null have an order between them. -/
def AllTied (column : List Value) : Prop :=
  ∀ a ∈ column, ∀ b ∈ column, a.isNull = false → b.isNull = false → a.sortCompare b = .eq

/-- The values of a column that are not null are of one family, and no decimal
among them is equal to two integers among them. -/
structure IsOfOneFamily (column : List Value) : Prop where
  exists_family : ∃ family, ∀ v ∈ column, v.isNull = false → v.family? = some family
  separates : ∀ m n x, integer m ∈ column → decimal x ∈ column → integer n ∈ column →
    (integer m).sortCompare (decimal x) = .eq → (decimal x).sortCompare (integer n) = .eq → m = n

variable {column : List Value}

private theorem SortsConsistently.of_le_trans
    (h : ∀ a ∈ column, ∀ b ∈ column, ∀ c ∈ column, (a.sortCompare b).isLE = true →
      (b.sortCompare c).isLE = true → (a.sortCompare c).isLE = true) :
    SortsConsistently column where
  le_trans := h
  tie_trans a ha b hb c hc hab hbc := by
    have hle : ∀ {o : Ordering}, o = .eq → o.isLE = true := by rintro _ rfl; rfl
    have hswap : ∀ {a b : Value}, a.sortCompare b = .eq → b.sortCompare a = .eq := by
      intro a b h
      rw [sortCompare_swap a b, h]
      rfl
    apply eq_of_isLE_of_isLE_swap (h a ha b hb c hc (hle hab) (hle hbc))
    rw [← sortCompare_swap]
    exact h c hc b hb a ha (hle (hswap hbc)) (hle (hswap hab))

/-- It is enough that the order is transitive on the values that are not null. -/
theorem SortsConsistently.of_not_isNull
    (h : ∀ a ∈ column, ∀ b ∈ column, ∀ c ∈ column, a.isNull = false → b.isNull = false →
      c.isNull = false → (a.sortCompare b).isLE = true → (b.sortCompare c).isLE = true →
        (a.sortCompare c).isLE = true) :
    SortsConsistently column := by
  apply of_le_trans
  intro a ha b hb c hc hab hbc
  cases hnull : a.isNull with
  | true => exact sortCompare_of_isNull hnull
  | false =>
      -- nothing but null is not after null
      have hb' : b.isNull = false := by
        cases h : b.isNull with
        | false => rfl
        | true => rw [isNull_of_isLE hab h] at hnull; cases hnull
      have hc' : c.isNull = false := by
        cases h : c.isNull with
        | false => rfl
        | true => rw [isNull_of_isLE hbc h] at hb'; cases hb'
      exact h a ha b hb c hc hnull hb' hc' hab hbc

theorem AllTied.sortsConsistently (h : AllTied column) : SortsConsistently column := by
  apply SortsConsistently.of_not_isNull
  intro a ha _ _ c hc hanull _ hcnull _ _
  rw [h a ha c hc hanull hcnull]
  rfl

theorem IsOfOneFamily.sortsConsistently (h : IsOfOneFamily column) : SortsConsistently column := by
  obtain ⟨family, hfamily⟩ := h.exists_family
  apply SortsConsistently.of_not_isNull
  intro a ha b hb c hc hanull hbnull hcnull
  refine isLE_trans_of_family (hfamily a ha hanull) (hfamily b hb hbnull) (hfamily c hc hcnull) ?_
  rintro m n x rfl rfl rfl
  exact h.separates m n x ha hb hc

/-- Where ties are transitive and two values are not tied, everything is of their family. -/
theorem SortsConsistently.isOfOneFamily (h : SortsConsistently column) (ha : a ∈ column)
    (hb : b ∈ column) (hanull : a.isNull = false) (hbnull : b.isNull = false)
    (hab : a.sortCompare b ≠ .eq) : IsOfOneFamily column := by
  have hsome : (a.compare? b).isSome = true := by
    rw [sortCompare_of_not_isNull hanull hbnull] at hab
    cases hcompare : a.compare? b with
    | some o => rfl
    | none => rw [hcompare] at hab; exact absurd rfl hab
  obtain ⟨family, hafamily, hbfamily⟩ := (compare?_isSome_iff a b).mp hsome
  constructor
  · refine ⟨family, fun v hv hvnull => ?_⟩
    -- a value outside would be tied with both
    by_cases hvfamily : v.family? = some family
    · exact hvfamily
    · have hav := sortCompare_of_family?_ne hanull hvnull hafamily hvfamily
      have hvb : v.sortCompare b = .eq := by
        rw [sortCompare_swap b v, sortCompare_of_family?_ne hbnull hvnull hbfamily hvfamily]
        rfl
      exact absurd (h.tie_trans a ha v hv b hb hav hvb) hab
  · intro m n x hm hx hn hmx hxn
    have htie := h.tie_trans _ hm _ hx _ hn hmx hxn
    rw [sortCompare_integer] at htie
    exact Std.compare_eq_iff_eq.mp htie

/-- The comparison that sorting uses turns round when its sides are exchanged. It is
transitive on the values of a column exactly if those that are not null are all tied, or are
all texts, all truth values or all numbers, and no decimal among the numbers is equal to two
integers among them. -/
theorem sortsConsistently_iff (column : List Value) :
    (∀ a b : Value, b.sortCompare a = (a.sortCompare b).swap) ∧
    (SortsConsistently column ↔ AllTied column ∨ IsOfOneFamily column) := by
  refine ⟨sortCompare_swap, fun h => ?_, ?_⟩
  · by_cases htied : AllTied column
    · exact .inl htied
    · right
      simp only [AllTied, Classical.not_forall] at htied
      obtain ⟨a, ha, b, hb, hanull, hbnull, hab⟩ := htied
      exact h.isOfOneFamily ha hb hanull hbnull hab
  · rintro (h | h)
    · exact h.sortsConsistently
    · exact h.sortsConsistently

/-- A truth value between two integers is tied with both of them, and so is a decimal that is
the double nearest to both. -/
theorem sortCompare_not_transitive :
    ((integer 1).sortCompare (boolean true) = .eq ∧
      (boolean true).sortCompare (integer 0) = .eq ∧
      (integer 1).sortCompare (integer 0) = .gt) ∧
    (integer 9007199254740993).sortCompare (decimal (Word64.toDouble 9007199254740992)) = .eq ∧
      (decimal (Word64.toDouble 9007199254740992)).sortCompare (integer 9007199254740992) = .eq ∧
      (integer 9007199254740993).sortCompare (integer 9007199254740992) = .gt := by
  decide

end ObjectQuery.Value
