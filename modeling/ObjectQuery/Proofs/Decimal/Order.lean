import Mathlib.Algebra.Order.Ring.Int
import ObjectQuery.Value.Compare

/-!
# The order of doubles

Doubles other than NaN are in order, and each has a place in it: below all
finite ones, among the negative ones, at zero, among the positive ones or
above, and among the finite ones by exponent and mantissa. Two doubles
compare as their places do, so the comparison turns round when its sides are
exchanged, and it is transitive, because the order of places is.

The double nearest to an integer keeps the order, although it may make
different integers equal. What rounding does to a mantissa is seen best in
quarters of its last place: a shift to the right keeps their order, and so
does the decision that the two bits behind the mantissa make. Between
numbers of different lengths, a carry cannot reach further than the least
number of the next length.

## Main definitions

* `place?` — the place of a double.
* `nearestFields` — exponent and mantissa of the double nearest to a number.

## Main results

* `compareFloats?_eq` — doubles compare as their places.
* `beq_iff` — doubles are equal if they have one place.
* `toDouble_mono` — taking the nearest double keeps the order of integers.
-/

namespace ObjectQuery.Decimal

open Float.Model (UnpackedFloat Format totalExponent)
open Float.Model.UnpackedFloat

/-! ## Places -/

/-- Where a double stands in the order: in which part of it, and there by its
exponent and then by its mantissa, both with the sign of the double. -/
abbrev Place : Type := Int × Int × Int

/-- The place of a double that is not packed. A NaN has none, and both zeros have the same. -/
def unpackedPlace? : UnpackedFloat → Option Place
  | .notANumber => none
  | .infinity .negative => some (-2, 0, 0)
  | .finite .negative m e _ => some (-1, -e, -m)
  | .zero _ => some (0, 0, 0)
  | .finite .positive m e _ => some (1, e, m)
  | .infinity .positive => some (2, 0, 0)

/-- The place of a double. -/
def place? (x : Float) : Option Place :=
  unpackedPlace? x.toModel.unpack

/-- The order of places. -/
def comparePlaces : Place → Place → Ordering :=
  compareLex (compareOn (·.1)) (compareLex (compareOn (·.2.1)) (compareOn (·.2.2)))

instance : Std.TransCmp comparePlaces :=
  inferInstanceAs (Std.TransCmp (compareLex _ _))

private theorem compare_then_isLE_iff {a b : Int} {next : Ordering} :
    ((compare a b).then next).isLE = true ↔ a < b ∨ a = b ∧ next.isLE = true := by
  rw [Int.compare_eq_ite_lt]
  rcases Int.lt_trichotomy a b with h | rfl | h
  · simp [h]
  · simp
  · simp [h, Int.lt_asymm h, Int.ne_of_gt h]

private theorem comparePlaces_isLE_iff {p q : Place} :
    (comparePlaces p q).isLE = true ↔
      p.1 < q.1 ∨ p.1 = q.1 ∧ (p.2.1 < q.2.1 ∨ p.2.1 = q.2.1 ∧ p.2.2 ≤ q.2.2) := by
  rw [← Int.isLE_compare (a := p.2.2), ← compare_then_isLE_iff, ← compare_then_isLE_iff]
  rfl

private theorem compare_neg (a b : Int) : compare (-a) (-b) = (compare a b).swap := by
  rw [Int.compare_eq_ite_lt, Int.compare_eq_ite_lt]
  rcases Int.lt_trichotomy a b with h | rfl | h
  · simp [h, Int.lt_asymm h]
  · simp
  · simp [h, Int.lt_asymm h]

private theorem compare_natCast (m n : Nat) : compare (m : Int) (n : Int) = compare m n := by
  simp [Int.compare_eq_ite_lt, Nat.compare_eq_ite_lt]

/-- Doubles that are not packed compare as their places. -/
theorem compare_unpacked (x y : UnpackedFloat) :
    x.compare y = do return comparePlaces (← unpackedPlace? x) (← unpackedPlace? y) := by
  have hpositive : ∀ (e d : Int) (m n : Nat),
      comparePlaces (1, e, m) (1, d, n) = (compare e d).then (compare m n) := by
    intro e d m n
    rw [← compare_natCast]
    rfl
  have hnegative : ∀ (e d : Int) (m n : Nat),
      comparePlaces (-1, -e, -m) (-1, -d, -n) = ((compare e d).then (compare m n)).swap := by
    intro e d m n
    rw [Ordering.swap_then, ← compare_neg, ← compare_natCast, ← compare_neg]
    rfl
  -- only two finite doubles of one sign are not told apart by the parts they stand in
  rcases x with (_ | _) | _ | (_ | _) | ⟨_ | _, m, e, hm⟩ <;>
    rcases y with (_ | _) | _ | (_ | _) | ⟨_ | _, n, d, hn⟩ <;>
    first
    | rfl
    | exact congrArg some (hpositive e d m n).symm
    | exact congrArg some (hnegative e d m n).symm

/-- Doubles compare as their places. -/
theorem compareFloats?_eq (x y : Float) :
    Value.compareFloats? x y = do return comparePlaces (← place? x) (← place? y) := by
  have hlt : ∀ x y : Float, x < y ↔ x.toModel.unpack.compare y.toModel.unpack = some .lt := by
    intro x y
    show decide ((x.toModel.unpack.compare y.toModel.unpack == some .lt) = true) = true ↔ _
    rw [decide_eq_true_iff, beq_iff_eq]
  have heq : (x == y) = (x.toModel.unpack.compare y.toModel.unpack == some .eq) := rfl
  unfold Value.compareFloats?
  simp only [hlt, heq, compare_unpacked, place?]
  cases unpackedPlace? x.toModel.unpack with
  | none => cases unpackedPlace? y.toModel.unpack <;> rfl
  | some p =>
      cases unpackedPlace? y.toModel.unpack with
      | none => rfl
      | some q =>
          have hswap : comparePlaces q p = (comparePlaces p q).swap := Std.OrientedCmp.eq_swap
          simp only [Option.bind_eq_bind, Option.bind_some, Option.pure_def, hswap]
          cases comparePlaces p q <;> rfl

private theorem comparePlaces_eq_eq_iff {p q : Place} : comparePlaces p q = .eq ↔ p = q := by
  constructor
  · intro h
    have hswap : comparePlaces q p = (comparePlaces p q).swap := Std.OrientedCmp.eq_swap
    have hle := comparePlaces_isLE_iff (p := p) (q := q)
    have hge := comparePlaces_isLE_iff (p := q) (q := p)
    rw [hswap] at hge
    rw [h] at hle hge
    simp only [Ordering.swap_eq, Ordering.isLE_eq, true_iff] at hle hge
    ext <;> omega
  · rintro rfl
    exact Std.ReflCmp.compare_self

/-- Doubles are equal if they have one place. -/
theorem beq_iff {x y : Float} :
    (x == y) = true ↔ ∃ p, place? x = some p ∧ place? y = some p := by
  show (x.toModel.unpack.compare y.toModel.unpack == some .eq) = true ↔ _
  rw [compare_unpacked, beq_iff_eq]
  show ((place? x).bind fun p => (place? y).bind fun q => some (comparePlaces p q)) = _ ↔ _
  cases place? x with
  | none => simp
  | some p =>
      cases place? y with
      | none => simp
      | some q =>
          simp only [Option.bind_some, Option.some.injEq, comparePlaces_eq_eq_iff]
          exact ⟨fun h => ⟨p, rfl, h.symm⟩, fun ⟨_, hp, hq⟩ => hp.trans hq.symm⟩

theorem beq_comm (x y : Float) : (x == y) = (y == x) := by
  rw [Bool.eq_iff_iff, beq_iff, beq_iff]
  exact exists_congr fun p => and_comm

theorem beq_trans {x y z : Float} (hxy : (x == y) = true) (hyz : (y == z) = true) :
    (x == z) = true := by
  obtain ⟨p, hx, hy⟩ := beq_iff.mp hxy
  obtain ⟨q, hy', hz⟩ := beq_iff.mp hyz
  obtain rfl := Option.some.inj (hy.symm.trans hy')
  exact beq_iff.mpr ⟨p, hx, hz⟩

/-! ## Rounding -/

/-- A mantissa with its residual bits, in quarters of its last place. -/
def quarters (em : ExtendedMantissa) : Nat :=
  4 * em.mantissa + 2 * em.roundBit.toNat + em.stickyBit.toNat

private theorem quarters_shiftRightOne_mono {a b : ExtendedMantissa} (h : quarters a ≤ quarters b) :
    quarters a.shiftRightOne ≤ quarters b.shiftRightOne := by
  obtain ⟨m, r, s⟩ := a
  obtain ⟨n, t, u⟩ := b
  have hbit : ∀ m : Nat, (m % 2 != 0).toNat = m % 2 := by
    intro m
    rcases Nat.mod_two_eq_zero_or_one m with h | h <;> rw [h] <;> rfl
  simp only [quarters, ExtendedMantissa.shiftRightOne, hbit] at h ⊢
  cases r <;> cases s <;> cases t <;> cases u <;>
    simp only [Bool.toNat_true, Bool.toNat_false, Bool.or_true, Bool.or_false] at h ⊢ <;> omega

private theorem roundedMantissa_mono {a b : ExtendedMantissa} (h : quarters a ≤ quarters b) :
    a.roundedMantissa ≤ b.roundedMantissa := by
  obtain ⟨m, r, s⟩ := a
  obtain ⟨n, t, u⟩ := b
  simp only [quarters] at h
  cases r <;> cases s <;> cases t <;> cases u <;>
    simp only [Bool.toNat_true, Bool.toNat_false] at h <;>
    simp only [ExtendedMantissa.roundedMantissa, ExtendedMantissa.accuracy,
      Accuracy.roundToNearestEven] <;>
    omega

private theorem quarters_shift_mono {a b : ExtendedMantissa} (s : Nat)
    (h : quarters a ≤ quarters b) :
    quarters (a >>> s) ≤ quarters (b >>> s) := by
  induction s with
  | zero => exact h
  | succ s ih => exact quarters_shiftRightOne_mono ih

/-- A mantissa without residual bits. -/
def exactMantissa (m : Nat) : ExtendedMantissa := ⟨m, false, false⟩

/-- A number divided by a power of two, rounded. -/
def rounded (m s : Nat) : Nat :=
  (exactMantissa m >>> s).roundedMantissa

private theorem rounded_mono {m n : Nat} (s : Nat) (h : m ≤ n) : rounded m s ≤ rounded n s := by
  apply roundedMantissa_mono
  apply quarters_shift_mono
  simp only [quarters, exactMantissa]
  omega

theorem exactMantissa_shift (m s : Nat) : exactMantissa (m * 2 ^ s) >>> s = exactMantissa m := by
  induction s generalizing m with
  | zero => rw [Nat.pow_zero, Nat.mul_one]; rfl
  | succ s ih =>
      have hstep : exactMantissa (m * 2 ^ (s + 1)) >>> (s + 1) =
          (exactMantissa (m * 2 * 2 ^ s) >>> s).shiftRightOne := by
        rw [Nat.pow_succ', ← Nat.mul_assoc]
        rfl
      rw [hstep, ih]
      simp [exactMantissa, ExtendedMantissa.shiftRightOne]

private theorem rounded_exact (m s : Nat) : rounded (m * 2 ^ s) s = m := by
  rw [rounded, exactMantissa_shift]
  rfl

/-- The mantissa of the double nearest to a positive number, with fifty-three bits or, where
rounding carries over, one more. -/
def nearestMantissa (m : Nat) : Nat :=
  rounded (m <<< (52 - m.log2)) (m.log2 - 52)

private theorem nearestMantissa_bounds {m : Nat} (h : m ≠ 0) :
    2 ^ 52 ≤ nearestMantissa m ∧ nearestMantissa m ≤ 2 ^ 53 := by
  have hlow : 2 ^ m.log2 ≤ m := Nat.log2_self_le h
  have hhigh : m ≤ 2 ^ (m.log2 + 1) := Nat.le_of_lt Nat.lt_log2_self
  unfold nearestMantissa
  rw [Nat.shiftLeft_eq]
  have hscale : ∀ b, 2 ^ (m.log2 + b) * 2 ^ (52 - m.log2) = 2 ^ (52 + b) * 2 ^ (m.log2 - 52) := by
    intro b
    rw [← Nat.pow_add, ← Nat.pow_add]
    congr 1
    omega
  constructor
  · rw [← rounded_exact (2 ^ 52) (m.log2 - 52), ← hscale 0]
    exact rounded_mono _ (Nat.mul_le_mul_right _ hlow)
  · rw [← rounded_exact (2 ^ 53) (m.log2 - 52), ← hscale 1]
    exact rounded_mono _ (Nat.mul_le_mul_right _ hhigh)

/-- Exponent and mantissa of the double nearest to a positive number. -/
def nearestFields (m : Nat) : Int × Nat :=
  if nearestMantissa m = 2 ^ 53 then (m.log2 - 51, 2 ^ 52) else (m.log2 - 52, nearestMantissa m)

theorem nearestFields_bounds {m : Nat} (hm : m ≠ 0) :
    2 ^ 52 ≤ (nearestFields m).2 ∧ (nearestFields m).2 < 2 ^ 53 ∧
      (m.log2 : Int) - 52 ≤ (nearestFields m).1 ∧ (nearestFields m).1 ≤ m.log2 - 51 := by
  obtain ⟨hlow, hhigh⟩ := nearestMantissa_bounds hm
  unfold nearestFields
  split <;> dsimp only <;> omega

private theorem log2_mono {m n : Nat} (hm : m ≠ 0) (h : m ≤ n) : m.log2 ≤ n.log2 :=
  (Nat.le_log2 (by omega)).mpr (Nat.le_trans (Nat.log2_self_le hm) h)

private theorem nearestFields_mono {m n : Nat} (hm : m ≠ 0) (h : m ≤ n) :
    (nearestFields m).1 < (nearestFields n).1 ∨
      (nearestFields m).1 = (nearestFields n).1 ∧ (nearestFields m).2 ≤ (nearestFields n).2 := by
  have hn : n ≠ 0 := by omega
  obtain ⟨hmlow, hmhigh⟩ := nearestMantissa_bounds hm
  obtain ⟨hnlow, hnhigh⟩ := nearestMantissa_bounds hn
  rcases Nat.eq_or_lt_of_le (log2_mono hm h) with hlog | hlog
  · have hle : nearestMantissa m ≤ nearestMantissa n := by
      unfold nearestMantissa
      rw [hlog]
      apply rounded_mono
      rw [Nat.shiftLeft_eq, Nat.shiftLeft_eq]
      exact Nat.mul_le_mul_right _ h
    unfold nearestFields
    rw [hlog]
    split <;> split <;> dsimp only <;> omega
  · unfold nearestFields
    split <;> split <;> dsimp only <;> omega

theorem targetExponent_eq {t : Int} (h : -1021 ≤ t) :
    Format.binary64.targetExponent t = t - 53 := by
  have h53 : Format.binary64.mantissaBits = 53 := rfl
  have hmin : Format.binary64.minExponent = -1074 := rfl
  rw [Format.targetExponent, h53, hmin]
  omega

theorem shiftToTargetExponent_eq {m : Nat} {e : Int} (h : -1021 ≤ totalExponent m e) :
    shiftToTargetExponent .binary64 m e .exact =
      (exactMantissa m >>> (totalExponent m e - 53 - e).toNat,
        e + (totalExponent m e - 53 - e).toNat) := by
  unfold shiftToTargetExponent
  rw [targetExponent_eq h]
  rfl

theorem log2_shiftLeft {m : Nat} (h : m ≠ 0) (k : Nat) : (m <<< k).log2 = m.log2 + k := by
  have hne : m <<< k ≠ 0 := by
    rw [Nat.shiftLeft_eq]
    exact Nat.mul_ne_zero h (Nat.pos_iff_ne_zero.mp (Nat.two_pow_pos k))
  rw [Nat.log2_eq_iff hne, Nat.shiftLeft_eq, Nat.add_right_comm, Nat.pow_add, Nat.pow_add]
  exact ⟨Nat.mul_le_mul_right _ (Nat.log2_self_le h),
    Nat.mul_lt_mul_of_pos_right Nat.lt_log2_self (Nat.two_pow_pos k)⟩

/-- Rounding a positive number gives the nearest double. -/
theorem round_eq (sign : Sign) {m : Nat} (h : m ≠ 0) :
    ∃ hpos, UnpackedFloat.round .binary64 sign m 0 =
      .finite sign (nearestFields m).2 (nearestFields m).1 hpos := by
  -- first the number is shifted left, if it has too few bits for a mantissa
  have hdecrease : decreaseExponent m 0 (Format.binary64.targetExponent (totalExponent m 0)) =
      (m <<< (52 - m.log2), -((52 - m.log2 : Nat) : Int)) := by
    have htarget : Format.binary64.targetExponent (totalExponent m 0) = (m.log2 : Int) - 52 := by
      rw [targetExponent_eq (by unfold totalExponent; omega), totalExponent]
      omega
    have hamount : ((0 : Int) - (m.log2 - 52)).toNat = 52 - m.log2 := by omega
    rw [decreaseExponent, htarget, hamount, Int.zero_sub]
  -- then right, if it has too many, and the bits that are lost decide how it is rounded
  have hfirst : shiftToTargetExponent .binary64 (m <<< (52 - m.log2)) (-((52 - m.log2 : Nat) : Int))
      .exact = (exactMantissa (m <<< (52 - m.log2)) >>> (m.log2 - 52), (m.log2 : Int) - 52) := by
    have htotal : totalExponent (m <<< (52 - m.log2)) (-((52 - m.log2 : Nat) : Int)) =
        m.log2 + 1 := by
      rw [totalExponent, log2_shiftLeft h]
      omega
    have hamount : ((m.log2 : Int) + 1 - 53 - -((52 - m.log2 : Nat) : Int)).toNat =
        m.log2 - 52 := by omega
    rw [shiftToTargetExponent_eq (by omega), htotal, hamount]
    congr 1
    omega
  -- last, a carry into one more bit is shifted out again
  have hsecond : shiftToTargetExponent .binary64 (nearestMantissa m) ((m.log2 : Int) - 52) .exact =
      (exactMantissa (nearestFields m).2, (nearestFields m).1) := by
    obtain ⟨hlow, hhigh⟩ := nearestMantissa_bounds h
    unfold nearestFields
    split
    · next hcarry =>
        have htotal : totalExponent (2 ^ 53) ((m.log2 : Int) - 52) = m.log2 + 2 := by
          rw [totalExponent, Nat.log2_two_pow]
          omega
        have hamount : ((m.log2 : Int) + 2 - 53 - (m.log2 - 52)).toNat = 1 := by omega
        rw [hcarry, shiftToTargetExponent_eq (by omega), htotal, hamount]
        congr 1
        omega
    · next hcarry =>
        have hlog : (nearestMantissa m).log2 = 52 :=
          (Nat.log2_eq_iff (by omega)).mpr ⟨hlow, by omega⟩
        have htotal : totalExponent (nearestMantissa m) ((m.log2 : Int) - 52) = m.log2 + 1 := by
          rw [totalExponent, hlog]
          omega
        have hamount : ((m.log2 : Int) + 1 - 53 - (m.log2 - 52)).toNat = 0 := by omega
        rw [shiftToTargetExponent_eq (by omega), htotal, hamount]
        congr 1
        omega
  have hpos : 0 < (nearestFields m).2 := by
    have hlow := (nearestFields_bounds h).1
    omega
  refine ⟨hpos, ?_⟩
  rw [UnpackedFloat.round, hdecrease]
  dsimp only
  have hrounded : (exactMantissa (m <<< (52 - m.log2)) >>> (m.log2 - 52)).roundedMantissa =
      nearestMantissa m := rfl
  rw [roundWithAccuracy, hfirst]
  dsimp only
  rw [hrounded, hsecond]
  exact dif_neg (Nat.pos_iff_ne_zero.mp hpos)

private theorem ofBitVec_unpackSign (sign : Sign) (exponent : BitVec 11) (mantissa : BitVec 52) :
    Sign.ofBitVec (unpackSign (packComponents .binary64 sign exponent mantissa)) = sign := by
  have hsign : unpackSign (packComponents .binary64 sign exponent mantissa) = sign.toBitVec := by
    show (sign.toBitVec ++ exponent ++ mantissa).extractLsb' 63 1 = sign.toBitVec
    rw [BitVec.extractLsb'_append_eq_of_le (by decide),
      BitVec.extractLsb'_append_eq_of_le (by decide)]
    cases sign <;> rfl
  rw [hsign]
  cases sign <;> rfl

/-- A normal number is read back as it was packed. -/
theorem unpack_pack {sign : Sign} {m : Nat} {e : Int} (hpos : 0 < m) (hlow : 2 ^ 52 ≤ m)
    (hhigh : m < 2 ^ 53) (hleast : -1074 ≤ e) (hgreatest : e ≤ 971) :
    (Float.Model.pack (.finite sign m e hpos)).unpack = .finite sign m e hpos := by
  have hlog : m.log2 = 52 := (Nat.log2_eq_iff (by omega)).mpr ⟨hlow, hhigh⟩
  have hbias : Format.binary64.exponentBias = 1023 := rfl
  have hfield : (BitVec.ofNat 11 (e + 1075).toNat).toNat = (e + 1075).toNat := by
    rw [BitVec.toNat_ofNat]
    exact Nat.mod_eq_of_lt (by omega)
  have hfinite : BitVec.ofNat 11 (e + 1075).toNat ≠ -1#11 := by
    intro h
    rw [h] at hfield
    have : (-1#11).toNat = 2047 := rfl
    omega
  have hnormal : BitVec.ofNat 11 (e + 1075).toNat ≠ 0#11 := by
    intro h
    rw [h] at hfield
    have : (0#11).toNat = 0 := rfl
    omega
  have hmantissa : (1#1 ++ BitVec.ofNat 52 m).toNat = m := by
    rw [BitVec.toNat_append, ← Nat.shiftLeft_add_eq_or_of_lt (BitVec.isLt _), BitVec.toNat_ofNat,
      Nat.shiftLeft_eq]
    show 1 * 2 ^ 52 + m % 2 ^ 52 = m
    omega
  have hpack : UnpackedFloat.pack .binary64 (.finite sign m e hpos) =
      packComponents .binary64 sign (BitVec.ofNat 11 (e + 1075).toNat) (BitVec.ofNat 52 m) := by
    have hsum : e + (1023 : Nat) + (52 : Nat) = e + 1075 := by omega
    unfold UnpackedFloat.pack
    simp only [hlog, hbias, hsum]
    rw [if_neg (by omega)]
    exact if_pos rfl
  show UnpackedFloat.unpack .binary64 (UnpackedFloat.pack .binary64 _) = _
  rw [hpack]
  unfold UnpackedFloat.unpack
  dsimp only
  rw [unpackExponent_packComponents, if_neg hfinite, if_neg hnormal, UnpackedFloat.finite.injEq]
  refine ⟨ofBitVec_unpackSign .., ?_, ?_⟩
  · rw [unpackMantissa_packComponents]
    exact hmantissa
  · rw [hfield, hbias]
    omega

/-! ## Integers -/

/-- The place of the double nearest to an integer. -/
def integerPlace (n : Int) : Place :=
  if n < 0 then (-1, -(nearestFields n.natAbs).1, -(nearestFields n.natAbs).2)
  else if n = 0 then (0, 0, 0)
  else (1, (nearestFields n.natAbs).1, (nearestFields n.natAbs).2)

theorem integerPlace_mono {m n : Int} (h : m ≤ n) :
    (comparePlaces (integerPlace m) (integerPlace n)).isLE = true := by
  rw [comparePlaces_isLE_iff]
  unfold integerPlace
  by_cases hneg : n < 0
  · -- of two negative integers the greater one has the lesser magnitude
    have hfields := nearestFields_mono (m := n.natAbs) (n := m.natAbs) (by omega) (by omega)
    rw [if_pos (Int.lt_of_le_of_lt h hneg), if_pos hneg]
    dsimp only
    omega
  · by_cases hpos : 0 < m
    · have hfields := nearestFields_mono (m := m.natAbs) (n := n.natAbs) (by omega) (by omega)
      rw [if_neg (by omega), if_neg (by omega), if_neg (by omega), if_neg (by omega)]
      dsimp only
      omega
    · -- integers on different sides of zero, or at it, stand in different parts
      split
      · split <;> dsimp only <;> omega
      · rw [if_pos (by omega)]
        split <;> dsimp only <;> omega

private theorem nearestFields_normal {m : Nat} (h : m ≠ 0) (hword : m ≤ 2 ^ 63) :
    2 ^ 52 ≤ (nearestFields m).2 ∧ (nearestFields m).2 < 2 ^ 53 ∧
      -1074 ≤ (nearestFields m).1 ∧ (nearestFields m).1 ≤ 971 := by
  have hlog : m.log2 < 64 := (Nat.log2_lt h).mpr (by omega)
  obtain ⟨hlow, hhigh, hleast, hgreatest⟩ := nearestFields_bounds h
  omega

private theorem unpack_pack_round (sign : Sign) {m : Nat} (h : m ≠ 0) (hword : m ≤ 2 ^ 63) :
    ∃ hpos, (Float.Model.pack (UnpackedFloat.round .binary64 sign m 0)).unpack =
      .finite sign (nearestFields m).2 (nearestFields m).1 hpos := by
  obtain ⟨hpos, hround⟩ := round_eq sign h
  obtain ⟨hlow, hhigh, hleast, hgreatest⟩ := nearestFields_normal h hword
  refine ⟨hpos, ?_⟩
  rw [hround]
  exact unpack_pack hpos hlow hhigh hleast hgreatest

/-- The double nearest to an integer has the place of it. -/
theorem place?_toDouble (n : Int64) : place? (Word64.toDouble n) = some (integerPlace n.toInt) := by
  have hleast := Int64.le_toInt n
  have hgreatest := Int64.toInt_lt n
  have hplace : place? (Word64.toDouble n) =
      unpackedPlace? (Float.Model.pack
        (UnpackedFloat.normalize .binary64 n.toInt 0 .positive)).unpack := rfl
  rw [hplace, integerPlace, UnpackedFloat.normalize]
  rcases Int.lt_trichotomy n.toInt 0 with hn | hn | hn
  · obtain ⟨hpos, hfinite⟩ :=
      unpack_pack_round .negative (m := n.toInt.natAbs) (by omega) (by omega)
    have habs : (-n.toInt).toNat = n.toInt.natAbs := by omega
    rw [Int.compare_eq_lt.mpr hn, if_pos hn]
    dsimp only
    rw [habs, hfinite]
    rfl
  · rw [hn]
    rfl
  · obtain ⟨hpos, hfinite⟩ :=
      unpack_pack_round .positive (m := n.toInt.natAbs) (by omega) (by omega)
    have habs : n.toInt.toNat = n.toInt.natAbs := by omega
    rw [Int.compare_eq_gt.mpr hn, if_neg (by omega), if_neg (by omega)]
    dsimp only
    rw [habs, hfinite]
    rfl

/-- The doubles nearest to two integers have places in the order of the integers. -/
theorem toDouble_mono {m n : Int64} (h : m ≤ n) :
    ∃ p q, place? (Word64.toDouble m) = some p ∧ place? (Word64.toDouble n) = some q ∧
      (comparePlaces p q).isLE = true :=
  ⟨_, _, place?_toDouble m, place?_toDouble n, integerPlace_mono (Int64.le_iff_toInt_le.mp h)⟩

end ObjectQuery.Decimal
