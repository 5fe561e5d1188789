import ObjectQuery.Proofs.Decimal.Order
import ObjectQuery.Json.Numeral

/-!
# Numbers that are read are finite

A double that is a number has an exponent of at most 971, and one whose exponent
would be greater becomes infinite when it is packed. So an operation stays
among the numbers as long as the exponent of its result is bounded, and it is
enough to follow this bound: how far rounding, a product or a quotient can
move it.

A numeral is read as its significand, which has at most sixty-four bits, times
or divided by a power of ten. A product may become infinite, but it is no NaN,
and the reader refuses an infinite one. A power of ten is at least one, so that
the quotients stay as small as the significand.

## Main definitions

* `Within` — a double is a number with a bounded exponent.
* `AtLeastOne` — a double is a number whose magnitude is at least one.

## Main results

* `roundWithAccuracy_within` — rounding keeps a bound that leaves it a digit.
* `Within.mul`, `Within.div` — bounds of a product and of a quotient.
* `atLeastOne_tenTo` — the powers of ten that are doubles.
* `isFinite_scale` — a significand times a power of ten is finite.
-/

namespace ObjectQuery.Decimal

open Float.Model (UnpackedFloat Format totalExponent)
open Float.Model.UnpackedFloat

/-! ## Bounded exponents -/

/-- An unpacked double is a number, and its exponent is at most `c`. -/
def UnpackedWithin (c : Int) : UnpackedFloat → Prop
  | .zero _ => True
  | .finite _ _ e _ => e ≤ c
  | .infinity _ | .notANumber => False

instance (c : Int) : DecidablePred (UnpackedWithin c)
  | .zero _ => .isTrue trivial
  | .finite _ _ e _ => inferInstanceAs (Decidable (e ≤ c))
  | .infinity _ | .notANumber => .isFalse id

/-- A double is a number, and its exponent is at most `c`. -/
def Within (c : Int) (x : Float) : Prop :=
  UnpackedWithin c x.toModel.unpack

instance (c : Int) : DecidablePred (Within c) :=
  fun _ => inferInstanceAs (Decidable (UnpackedWithin ..))

/-- An unpacked double is a number whose magnitude is at least one. -/
def UnpackedAtLeastOne : UnpackedFloat → Prop
  | .finite _ m e _ => 1 ≤ totalExponent m e
  | .zero _ | .infinity _ | .notANumber => False

instance : DecidablePred UnpackedAtLeastOne
  | .finite _ m e _ => inferInstanceAs (Decidable (1 ≤ totalExponent m e))
  | .zero _ | .infinity _ | .notANumber => .isFalse id

/-- A double is a number whose magnitude is at least one. -/
def AtLeastOne (x : Float) : Prop :=
  UnpackedAtLeastOne x.toModel.unpack

instance : DecidablePred AtLeastOne :=
  fun _ => inferInstanceAs (Decidable (UnpackedAtLeastOne _))

variable {a b c e : Int} {m n : Nat} {sign : Sign} {accuracy : Accuracy} {u : UnpackedFloat}
  {x y : Float}

theorem UnpackedWithin.mono (h : UnpackedWithin a u) (hab : a ≤ b) : UnpackedWithin b u := by
  cases u with
  | zero => exact trivial
  | finite sign m e hpos => exact Int.le_trans h hab
  | infinity | notANumber => exact h.elim

theorem Within.mono (h : Within a x) (hab : a ≤ b) : Within b x :=
  UnpackedWithin.mono h hab

private theorem UnpackedWithin.isFinite (h : UnpackedWithin c u) : u.isFinite = true := by
  cases u with
  | zero | finite => rfl
  | infinity | notANumber => exact h.elim

private theorem Within.isFinite (h : Within c x) : x.isFinite = true :=
  UnpackedWithin.isFinite h

private theorem AtLeastOne.unpack_eq (h : AtLeastOne x) :
    ∃ sign m e hpos, x.toModel.unpack = .finite sign m e hpos ∧ 1 ≤ totalExponent m e := by
  unfold AtLeastOne at h
  cases hx : x.toModel.unpack with
  | zero | infinity | notANumber => exact (hx ▸ h).elim
  | finite sign m e hpos =>
      rw [hx] at h
      exact ⟨sign, m, e, hpos, rfl, h⟩

private theorem AtLeastOne.isFinite (h : AtLeastOne x) : x.isFinite = true := by
  obtain ⟨sign, m, e, hpos, hx, -⟩ := h.unpack_eq
  show x.toModel.unpack.isFinite = true
  rw [hx]
  rfl

/-! ## Packing -/

/-- The eleven bits of a packed double that hold its exponent. -/
def packedExponent (bits : BitVec 64) : BitVec 11 :=
  @unpackExponent .binary64 bits

/-- The greatest exponent field is kept for infinities and NaN. -/
theorem unpack_of_ones {bits : BitVec 64} (h : packedExponent bits = -1#11) :
    (UnpackedFloat.unpack .binary64 bits).isFinite = false := by
  unfold packedExponent at h
  unfold UnpackedFloat.unpack
  dsimp only
  rw [if_pos h]
  by_cases hmantissa : @unpackMantissa .binary64 bits = 0#52
  · rw [if_pos hmantissa]
    rfl
  · rw [if_neg hmantissa]
    rfl

/-- With any other exponent field a double is a number: its exponent is read off the field, and
its mantissa has at most fifty-three bits. -/
theorem unpack_of_ne_ones {bits : BitVec 64} (h : packedExponent bits ≠ -1#11) :
    (∃ sign, UnpackedFloat.unpack .binary64 bits = .zero sign) ∨
      ∃ sign m e hpos, UnpackedFloat.unpack .binary64 bits = .finite sign m e hpos ∧
        m < 2 ^ 53 ∧ (e = -1074 ∨ e = (packedExponent bits).toNat - (1075 : Int)) := by
  unfold packedExponent at h ⊢
  unfold UnpackedFloat.unpack
  dsimp only
  rw [if_neg h]
  by_cases hzero : @unpackExponent .binary64 bits = 0#11
  · rw [if_pos hzero]
    by_cases hmantissa : @unpackMantissa .binary64 bits = 0#52
    · rw [dif_pos hmantissa]
      exact .inl ⟨_, rfl⟩
    · have hpos : 0 < (@unpackMantissa .binary64 bits).toNat :=
        Nat.pos_of_ne_zero fun h => hmantissa (BitVec.eq_of_toNat_eq h)
      rw [dif_neg hmantissa, hzero]
      exact .inr ⟨_, _, _, hpos, rfl, Nat.lt_trans (BitVec.isLt _) (by decide), .inl rfl⟩
  · have hpos : 0 < (1#1 ++ @unpackMantissa .binary64 bits).toNat := by
      rw [BitVec.toNat_append]
      exact Nat.lt_of_lt_of_le (by decide : 0 < 1 <<< 52) Nat.left_le_or
    rw [if_neg hzero]
    exact .inr ⟨_, _, _, hpos, rfl, BitVec.isLt _, .inr rfl⟩

/-- A number has an exponent up to the bound that holds of its exponent field. -/
theorem within_unpack {bits : BitVec 64} (hc : -1074 ≤ c)
    (hfield : ((packedExponent bits).toNat : Int) ≤ c + 1075)
    (hones : packedExponent bits ≠ -1#11) :
    UnpackedWithin c (UnpackedFloat.unpack .binary64 bits) := by
  obtain ⟨sign, hzero⟩ | ⟨sign, m, e, hpos, hnumber, -, hexponent⟩ := unpack_of_ne_ones hones
  · rw [hzero]
    exact trivial
  · rw [hnumber]
    show e ≤ c
    omega

private theorem packedExponent_ne_ones (h : x.isFinite = true) :
    packedExponent x.toModel.toBits.toBitVec ≠ -1#11 := by
  intro hones
  have hinfinite : x.isFinite = false := unpack_of_ones hones
  rw [hinfinite] at h
  cases h

/-- The exponents of doubles end at 971. -/
theorem within_of_isFinite (h : x.isFinite = true) : Within 971 x := by
  have hones := packedExponent_ne_ones h
  have hwidth : (packedExponent x.toModel.toBits.toBitVec).toNat < 2 ^ 11 := BitVec.isLt _
  have hgreatest : (packedExponent x.toModel.toBits.toBitVec).toNat ≠ 2047 :=
    fun hfield => hones (BitVec.eq_of_toNat_eq hfield)
  exact within_unpack (by decide) (by omega) hones

/-- The mantissa of a number has at most fifty-three bits. -/
theorem Within.unpack_cases (h : Within c x) :
    (∃ sign, x.toModel.unpack = .zero sign) ∨
      ∃ sign m e hpos, x.toModel.unpack = .finite sign m e hpos ∧ m < 2 ^ 53 ∧ e ≤ c := by
  obtain ⟨sign, hzero⟩ | ⟨sign, m, e, hpos, hnumber, hmantissa, -⟩ :=
    unpack_of_ne_ones (packedExponent_ne_ones h.isFinite)
  · exact .inl ⟨sign, hzero⟩
  · have hunpack : x.toModel.unpack = .finite sign m e hpos := hnumber
    have hexponent : UnpackedWithin c x.toModel.unpack := h
    rw [hunpack] at hexponent
    exact .inr ⟨sign, m, e, hpos, hunpack, hmantissa, hexponent⟩

/-- What the fields of a packed number are, if its exponent is not too great. -/
theorem exists_pack_eq (sign : Sign) (hpos : 0 < m) (he : e ≤ 971) :
    ∃ field mantissa,
      UnpackedFloat.pack .binary64 (.finite sign m e hpos) =
          packComponents .binary64 sign field mantissa ∧
        field.toNat ≤ (e + 1075).toNat := by
  have hbias : Format.binary64.exponentBias = 1023 := rfl
  have hsum : e + (1023 : Nat) + (52 : Nat) = e + 1075 := by omega
  unfold UnpackedFloat.pack
  simp only [hbias, hsum]
  rw [if_neg (by omega)]
  split
  · refine ⟨_, _, rfl, ?_⟩
    rw [BitVec.toNat_ofNat]
    exact Nat.mod_le _ _
  · exact ⟨_, _, rfl, Nat.zero_le _⟩

/-- Packing keeps the bound of an exponent, if doubles have exponents up to it. -/
theorem UnpackedWithin.pack (h : UnpackedWithin c u) (hc : -1074 ≤ c) (hgreatest : c ≤ 971) :
    UnpackedWithin c (Float.Model.pack u).unpack := by
  have hpack : ∀ {sign} {field : BitVec 11} {mantissa}, (field.toNat : Int) ≤ c + 1075 →
      UnpackedWithin c
        (UnpackedFloat.unpack .binary64 (packComponents .binary64 sign field mantissa)) := by
    intro sign field mantissa hfield
    refine within_unpack hc ?_ ?_ <;> rw [packedExponent, unpackExponent_packComponents]
    · exact hfield
    · rintro rfl
      have hones : (-1#11).toNat = 2047 := rfl
      omega
  show UnpackedWithin c (UnpackedFloat.unpack .binary64 (UnpackedFloat.pack .binary64 u))
  cases u with
  | infinity | notANumber => exact h.elim
  | zero sign => exact hpack (by show ((0 : Nat) : Int) ≤ c + 1075; omega)
  | finite sign m e hpos =>
      have he : e ≤ c := h
      obtain ⟨field, mantissa, hfields, hfield⟩ :=
        exists_pack_eq sign hpos (Int.le_trans he hgreatest)
      rw [hfields]
      exact hpack (by omega)

private theorem isInf_packedInfinity (sign : Sign) :
    (UnpackedFloat.unpack .binary64 (packedInfinity .binary64 sign)).isInf = true := by
  have hmantissa : @unpackMantissa .binary64 (packedInfinity .binary64 sign) = 0#52 :=
    unpackMantissa_packComponents
  unfold UnpackedFloat.unpack
  dsimp only
  rw [packedInfinity, if_pos unpackExponent_packComponents, ← packedInfinity, if_pos hmantissa]
  rfl

/-- A number that is packed does not become NaN. -/
theorem isFinite_or_isInf_pack (h : u.isFinite = true) :
    (Float.Model.pack u).isFinite = true ∨ (Float.Model.pack u).isInf = true := by
  cases u with
  | infinity | notANumber => cases h
  | zero sign =>
      have hwithin : UnpackedWithin 971 (.zero sign) := trivial
      exact .inl (hwithin.pack (by decide) (by decide)).isFinite
  | finite sign m e hpos =>
      by_cases he : e ≤ 971
      · have hwithin : UnpackedWithin 971 (.finite sign m e hpos) := he
        exact .inl (hwithin.pack (by decide) (by decide)).isFinite
      · have hbias : Format.binary64.exponentBias = 1023 := rfl
        have hpack : UnpackedFloat.pack .binary64 (.finite sign m e hpos) =
            packedInfinity .binary64 sign := by
          unfold UnpackedFloat.pack
          dsimp only
          rw [hbias, if_pos (by omega)]
        refine .inr ?_
        show (UnpackedFloat.unpack .binary64 (UnpackedFloat.pack .binary64 _)).isInf = true
        rw [hpack]
        exact isInf_packedInfinity sign

/-! ## Rounding -/

private theorem mantissa_shiftRight (em : ExtendedMantissa) (k : Nat) :
    (em >>> k).mantissa = em.mantissa / 2 ^ k := by
  induction k with
  | zero => rw [Nat.pow_zero, Nat.div_one]; rfl
  | succ k ih =>
      show (em >>> k).mantissa / 2 = _
      rw [ih, Nat.div_div_eq_div_mul, ← Nat.pow_succ]

/-- Rounding raises a mantissa by one at most. -/
theorem roundedMantissa_le (em : ExtendedMantissa) : em.roundedMantissa ≤ em.mantissa + 1 := by
  obtain ⟨m, r, s⟩ := em
  cases r <;> cases s <;>
    simp only [ExtendedMantissa.roundedMantissa, ExtendedMantissa.accuracy,
      Accuracy.roundToNearestEven] <;>
    omega

private theorem lt_two_pow_iff {t : Int} (ht : e < t) :
    m < 2 ^ (t - e).toNat ↔ totalExponent m e ≤ t := by
  unfold totalExponent
  by_cases hm : m = 0
  · subst hm
    have hzero : Nat.log2 0 = 0 := by decide
    rw [hzero]
    exact iff_of_true (Nat.two_pow_pos _) (by omega)
  · rw [← Nat.log2_lt hm]
    omega

/-- A shift to the exponent of a double does not lift the exponent above the bound `c`, and it
leaves no more digits than the number has above this bound. -/
theorem shiftToTargetExponent_le (accuracy : Accuracy) {digits : Nat} (hdigits : 1 ≤ digits)
    (hbits : digits ≤ 53) (hc : -1074 ≤ c) (he : e ≤ c)
    (htotal : totalExponent m e ≤ c + digits) :
    (shiftToTargetExponent .binary64 m e accuracy).2 ≤ c ∧
      totalExponent (shiftToTargetExponent .binary64 m e accuracy).1.mantissa
        (shiftToTargetExponent .binary64 m e accuracy).2 ≤ c + digits := by
  have h53 : Format.binary64.mantissaBits = 53 := rfl
  have hmin : Format.binary64.minExponent = -1074 := rfl
  have hm : m < 2 ^ (c + digits - e).toNat := (lt_two_pow_iff (by omega)).mpr htotal
  unfold shiftToTargetExponent shiftToExponent Format.targetExponent
  rw [h53, hmin]
  dsimp only
  generalize hk : (max (totalExponent m e - (53 : Nat)) (-1074) - e).toNat = k
  have hshift : e + k ≤ c := by omega
  refine ⟨hshift, ?_⟩
  have hmantissa : (ExtendedMantissa.ofMantissaAndAccuracy m accuracy).mantissa = m := by
    cases accuracy with
    | exact => rfl
    | inexact ordering => cases ordering <;> rfl
  have hsum : (c + digits - (e + k)).toNat + k = (c + digits - e).toNat := by omega
  rw [← lt_two_pow_iff (by omega), mantissa_shiftRight, hmantissa,
    Nat.div_lt_iff_lt_mul (Nat.two_pow_pos k), ← Nat.pow_add, hsum]
  exact hm

/-- Rounding shifts a number to the exponent of a double twice, since it may carry. -/
theorem roundWithAccuracy_cases (sign : Sign) {first : ExtendedMantissa × Int}
    (hfirst : shiftToTargetExponent .binary64 m e accuracy = first) :
    roundWithAccuracy .binary64 sign m e accuracy = .zero sign ∨
      ∃ n hpos, roundWithAccuracy .binary64 sign m e accuracy = .finite sign n
        (shiftToTargetExponent .binary64 first.1.roundedMantissa first.2 .exact).2 hpos := by
  rw [roundWithAccuracy, hfirst]
  dsimp only
  by_cases hzero :
      (shiftToTargetExponent .binary64 first.1.roundedMantissa first.2 .exact).1.mantissa = 0
  · rw [dif_pos hzero]
    exact .inl rfl
  · rw [dif_neg hzero]
    exact .inr ⟨_, _, rfl⟩

private theorem roundWithAccuracy_isFinite :
    (roundWithAccuracy .binary64 sign m e accuracy).isFinite = true := by
  generalize hfirst : shiftToTargetExponent .binary64 m e accuracy = first
  obtain hzero | ⟨_, _, hnumber⟩ := roundWithAccuracy_cases sign hfirst
  · rw [hzero]
    rfl
  · rw [hnumber]
    rfl

/-- A number that is rounded does not get an exponent above the bound `c`, if it had at most
fifty-two digits above this bound. -/
theorem roundWithAccuracy_within (hc : -1074 ≤ c) (he : e ≤ c)
    (htotal : totalExponent m e ≤ c + 52) :
    UnpackedWithin c (roundWithAccuracy .binary64 sign m e accuracy) := by
  obtain ⟨hfirst, hdigits⟩ :=
    shiftToTargetExponent_le accuracy (by decide : 1 ≤ 52) (by decide) hc he htotal
  generalize hround : shiftToTargetExponent .binary64 m e accuracy = first at hfirst hdigits
  obtain ⟨em, e₁⟩ := first
  dsimp only at hfirst hdigits
  -- a carry adds one digit, which is shifted out again
  have hcarry : totalExponent em.roundedMantissa e₁ ≤ c + 53 := by
    rw [← lt_two_pow_iff (by omega)] at hdigits ⊢
    have hrounded := roundedMantissa_le em
    have hsucc : (c + 53 - e₁).toNat = (c + (52 : Nat) - e₁).toNat + 1 := by omega
    rw [hsucc, Nat.pow_succ]
    omega
  obtain ⟨hsecond, -⟩ :=
    shiftToTargetExponent_le .exact (by decide : 1 ≤ 53) (by decide) hc hfirst hcarry
  obtain hzero | ⟨_, _, hnumber⟩ := roundWithAccuracy_cases sign hround
  · rw [hzero]
    exact trivial
  · rw [hnumber]
    exact hsecond

private theorem shiftRight_add (em : ExtendedMantissa) (j k : Nat) :
    em >>> (j + k) = em >>> j >>> k := by
  induction k with
  | zero => rfl
  | succ k ih =>
      show (em >>> (j + k)).shiftRightOne = (em >>> j >>> k).shiftRightOne
      rw [ih]

/-- Zeros behind a number of enough bits do not change how it is rounded. -/
theorem roundWithAccuracy_eq_round (hlog : 52 ≤ m.log2) :
    roundWithAccuracy .binary64 sign (m * 2 ^ 53) (-53) .exact = round .binary64 sign m 0 := by
  have hm : m ≠ 0 := by
    rintro rfl
    exact absurd hlog (by decide)
  have htotal : totalExponent (m * 2 ^ 53) (-53) = m.log2 + 1 := by
    rw [totalExponent, ← Nat.shiftLeft_eq, log2_shiftLeft hm]
    omega
  have htotal' : totalExponent m 0 = m.log2 + 1 := by
    unfold totalExponent
    omega
  have hdecrease : decreaseExponent m 0 (Format.binary64.targetExponent (totalExponent m 0)) =
      (m, 0) := by
    have hamount : ((0 : Int) - ((m.log2 : Int) + 1 - 53)).toNat = 0 := by omega
    rw [htotal', targetExponent_eq (by omega), decreaseExponent, hamount]
    rfl
  have hshift : shiftToTargetExponent .binary64 (m * 2 ^ 53) (-53) .exact =
      shiftToTargetExponent .binary64 m 0 .exact := by
    have hamount : ((m.log2 : Int) + 1 - 53 - -53).toNat = 53 + (m.log2 - 52) := by omega
    have hamount' : ((m.log2 : Int) + 1 - 53 - 0).toNat = m.log2 - 52 := by omega
    rw [shiftToTargetExponent_eq (by omega), shiftToTargetExponent_eq (by omega), htotal, htotal',
      hamount, hamount', shiftRight_add, exactMantissa_shift]
    congr 1
    omega
  rw [UnpackedFloat.round]
  simp only [hdecrease]
  rw [roundWithAccuracy, roundWithAccuracy, hshift]

/-! ## Operations -/

theorem isFinite_neg (h : x.isFinite = true) : (-x).isFinite = true := by
  have hwithin : UnpackedWithin 971 x.toModel.unpack := within_of_isFinite h
  have hneg : UnpackedWithin 971 x.toModel.unpack.neg := by
    generalize x.toModel.unpack = u at hwithin ⊢
    cases u <;> exact hwithin
  exact (hneg.pack (by decide) (by decide)).isFinite

/-- A product of numbers is not NaN. -/
theorem isFinite_or_isInf_mul (hx : x.isFinite = true) (hy : y.isFinite = true) :
    (x * y).isFinite = true ∨ (x * y).isInf = true := by
  have hproduct :
      (UnpackedFloat.mul .binary64 x.toModel.unpack y.toModel.unpack).isFinite = true := by
    obtain ⟨_, hx⟩ | ⟨_, m, e, _, hx, -⟩ := (within_of_isFinite hx).unpack_cases <;>
      obtain ⟨_, hy⟩ | ⟨_, n, d, _, hy, -⟩ := (within_of_isFinite hy).unpack_cases <;>
      rw [hx, hy]
    · rfl
    · rfl
    · rfl
    · exact roundWithAccuracy_isFinite
  exact isFinite_or_isInf_pack hproduct

theorem Within.mul (hx : Within a x) (hy : Within b y) (hlow : -1074 ≤ a + b + 54)
    (hhigh : a + b + 54 ≤ 971) : Within (a + b + 54) (x * y) := by
  have hproduct : UnpackedWithin (a + b + 54)
      (UnpackedFloat.mul .binary64 x.toModel.unpack y.toModel.unpack) := by
    obtain ⟨_, hx⟩ | ⟨_, m, e, _, hx, hm, he⟩ := hx.unpack_cases <;>
      obtain ⟨_, hy⟩ | ⟨_, n, d, _, hy, hn, hd⟩ := hy.unpack_cases <;>
      rw [hx, hy]
    · exact trivial
    · exact trivial
    · exact trivial
    · have hdigits : m * n < 2 ^ (a + b + 106 - (e + d)).toNat := by
        calc m * n < 2 ^ 53 * 2 ^ 53 := Nat.mul_lt_mul'' hm hn
          _ = 2 ^ 106 := by rw [← Nat.pow_add]
          _ ≤ 2 ^ (a + b + 106 - (e + d)).toNat := Nat.pow_le_pow_right (by decide) (by omega)
      have htotal : totalExponent (m * n) (e + d) ≤ a + b + 106 :=
        (lt_two_pow_iff (by omega)).mp hdigits
      exact roundWithAccuracy_within hlow (by omega) (by omega)
  exact hproduct.pack hlow hhigh

/-- A quotient has no more digits above the bound `c` than its sides leave it. -/
theorem divCore_le {m₁ m₂ : Nat} {e₁ e₂ : Int} (hpos : 0 < m₂) (hc : -1074 ≤ c)
    (htotal : totalExponent m₁ e₁ - totalExponent m₂ e₂ ≤ c + 51) :
    (divCore .binary64 m₁ e₁ m₂ e₂).2.1 ≤ c ∧
      totalExponent (divCore .binary64 m₁ e₁ m₂ e₂).1 (divCore .binary64 m₁ e₁ m₂ e₂).2.1 ≤
        c + 52 := by
  have h53 : Format.binary64.mantissaBits = 53 := rfl
  have hmin : Format.binary64.minExponent = -1074 := rfl
  have hhigh : m₁ < 2 ^ (m₁.log2 + 1) := Nat.lt_log2_self
  have hlow : 2 ^ m₂.log2 ≤ m₂ := Nat.log2_self_le (by omega)
  unfold divCore Format.targetExponent
  rw [h53, hmin]
  dsimp only
  generalize htarget : min (e₁ - e₂)
    (max (totalExponent m₁ e₁ - totalExponent m₂ e₂ - (53 : Nat)) (-1074)) = target
  unfold totalExponent at htotal htarget
  have hbound : target ≤ c := by omega
  refine ⟨hbound, ?_⟩
  rw [← lt_two_pow_iff (by omega), Nat.div_lt_iff_lt_mul hpos, Nat.shiftLeft_eq]
  calc m₁ * 2 ^ (e₁ - e₂ - target).toNat
      < 2 ^ (m₁.log2 + 1) * 2 ^ (e₁ - e₂ - target).toNat :=
        Nat.mul_lt_mul_of_pos_right hhigh (Nat.two_pow_pos _)
    _ = 2 ^ (m₁.log2 + 1 + (e₁ - e₂ - target).toNat) := (Nat.pow_add ..).symm
    _ ≤ 2 ^ ((c + 52 - target).toNat + m₂.log2) := Nat.pow_le_pow_right (by decide) (by omega)
    _ = 2 ^ (c + 52 - target).toNat * 2 ^ m₂.log2 := Nat.pow_add ..
    _ ≤ 2 ^ (c + 52 - target).toNat * m₂ := Nat.mul_le_mul_left _ hlow

/-- A number stays one when it is divided by a number whose magnitude is at least one. -/
theorem Within.div (hx : Within a x) (hy : AtLeastOne y) (hlow : -1075 ≤ a) (hhigh : a ≤ 970) :
    Within (a + 1) (x / y) := by
  obtain ⟨_, n, d, hpos, hy, hone⟩ := hy.unpack_eq
  have hquotient : UnpackedWithin (a + 1)
      (UnpackedFloat.div .binary64 x.toModel.unpack y.toModel.unpack) := by
    obtain ⟨_, hx⟩ | ⟨_, m, e, _, hx, hm, he⟩ := hx.unpack_cases <;> rw [hx, hy]
    · exact trivial
    · have hlog : m.log2 < 53 := (Nat.log2_lt (by omega)).mpr hm
      have htotal : totalExponent m e - totalExponent n d ≤ a + 1 + 51 := by
        have : totalExponent m e = m.log2 + 1 + e := rfl
        omega
      obtain ⟨hexponent, hdigits⟩ := divCore_le hpos (by omega) htotal
      exact roundWithAccuracy_within (by omega) hexponent hdigits
  exact hquotient.pack (by omega) (by omega)

/-! ## Natural numbers and powers of ten -/

private theorem ofScientific_eq (hm : m ≠ 0) (hn : n ≤ 308) :
    UnpackedFloat.ofScientific .binary64 m (n : Int) =
      roundWithAccuracy .binary64 .positive (m * 10 ^ n * 2 ^ 53) (-53) .exact := by
  have hwidth : (2 : Int) ^ Format.binary64.exponentBits = 2048 := rfl
  unfold UnpackedFloat.ofScientific
  rw [dif_neg hm, hwidth, if_neg (by omega), if_neg (by omega), if_pos (by omega)]
  show roundWithAccuracy .binary64 .positive (m <<< 53 * 10 ^ n) (-53) .exact = _
  rw [Nat.shiftLeft_eq, Nat.mul_right_comm]

/-- The double nearest to a number of at most sixty-four bits. -/
theorem within_ofNat (hn : n < 2 ^ 64) : Within 12 (Float.ofNat n) := by
  show Within 12 (Float.ofScientific n false 0)
  unfold Float.ofScientific
  by_cases hshort : n < 2 ^ 53
  · -- few bits: the nearest double is the number itself, multiplied by one
    rw [dif_pos ⟨hshort, Nat.zero_le _⟩]
    have hnearest : UnpackedWithin 1 (UnpackedFloat.normalize .binary64 n 0 .positive) := by
      rw [UnpackedFloat.normalize]
      by_cases hzero : n = 0
      · subst hzero
        exact trivial
      · rw [Int.compare_eq_gt.mpr (by omega), Int.toNat_natCast]
        obtain ⟨hpos, hround⟩ := round_eq .positive hzero
        obtain ⟨-, -, -, hexponent⟩ := nearestFields_bounds hzero
        have hlog : n.log2 < 53 := (Nat.log2_lt hzero).mpr hshort
        rw [hround]
        show (nearestFields n).1 ≤ 1
        omega
    have hword : n.toUInt64.toNat = n := Nat.mod_eq_of_lt hn
    have hfloat : Within 1 n.toUInt64.toFloat := by
      show UnpackedWithin 1 (Float.Model.pack
        (UnpackedFloat.normalize .binary64 n.toUInt64.toNat 0 .positive)).unpack
      rw [hword]
      exact hnearest.pack (by decide) (by decide)
    have hone : Within (-52) Float.exactlyRepresentablePowersOfTen[0] := by decide
    exact (hfloat.mul hone (by decide) (by decide)).mono (by decide)
  · rw [dif_neg (fun h => hshort h.1)]
    show UnpackedWithin 12
      (Float.Model.pack (UnpackedFloat.ofScientific .binary64 n (0 : Nat))).unpack
    rw [ofScientific_eq (by omega) (by decide)]
    refine UnpackedWithin.pack ?_ (by decide) (by decide)
    have hdigits : n * 10 ^ 0 * 2 ^ 53 < 2 ^ ((64 : Int) - (-53)).toNat := by
      show n * 10 ^ 0 * 2 ^ 53 < 2 ^ 117
      omega
    exact roundWithAccuracy_within (by decide) (by decide) ((lt_two_pow_iff (by decide)).mp hdigits)

/-- The powers of ten that are doubles. -/
theorem atLeastOne_tenTo (hn : n ≤ 308) : AtLeastOne (Json.tenTo n) := by
  have hfew : ∀ n < 23, AtLeastOne (Json.tenTo n) := by decide +kernel
  by_cases hsmall : n < 23
  · exact hfew n hsmall
  by_cases hlast : n = 308
  · subst hlast
    decide +kernel
  -- rounding cannot carry one of the other powers beyond the doubles
  have hpos : (10 : Nat) ^ n ≠ 0 := Nat.pos_iff_ne_zero.mp (Nat.pow_pos (by decide))
  have hlow : 52 ≤ (10 ^ n).log2 := by
    rw [Nat.le_log2 hpos]
    calc 2 ^ 52 ≤ 10 ^ 23 := by decide
      _ ≤ 10 ^ n := Nat.pow_le_pow_right (by decide) (by omega)
  have hhigh : (10 ^ n).log2 < 1023 := by
    rw [Nat.log2_lt hpos]
    calc 10 ^ n ≤ 10 ^ 307 := Nat.pow_le_pow_right (by decide) (by omega)
      _ < 2 ^ 1023 := by decide +kernel
  obtain ⟨hleast, hless, hexponent, hexponent'⟩ := nearestFields_bounds hpos
  obtain ⟨hfields, hround⟩ := round_eq .positive hpos
  show AtLeastOne (Float.ofScientific 1 false n)
  unfold Float.ofScientific
  rw [dif_neg (by omega)]
  show UnpackedAtLeastOne
    (Float.Model.pack (UnpackedFloat.ofScientific .binary64 1 (n : Nat))).unpack
  rw [ofScientific_eq (by decide) hn, Nat.one_mul, roundWithAccuracy_eq_round hlow, hround,
    unpack_pack hfields hleast hless (by omega) (by omega)]
  show 1 ≤ totalExponent _ _
  unfold totalExponent
  omega

/-! ## Numerals -/

/-- A significand times or divided by a power of ten is finite. -/
theorem isFinite_scale {significand : Nat} {exponent : Int}
    (hsignificand : significand ≤ Json.maxSignificand)
    (h : Json.scale significand exponent = some x) : x.isFinite = true := by
  have hfits : Within 12 (Float.ofNat significand) :=
    within_ofNat (Nat.lt_of_le_of_lt hsignificand (by decide))
  have hdivided : ∀ {n : Nat}, n ≤ 308 → Within 13 (Float.ofNat significand / Json.tenTo n) :=
    fun hn => hfits.div (atLeastOne_tenTo hn) (by decide) (by decide)
  unfold Json.scale at h
  split at h
  · obtain rfl := Option.some.inj h
    decide
  split at h
  · cases h
  dsimp only at h
  split at h
  · -- a product that is too great is refused, and it is not NaN
    split at h
    · cases h
    · next hbounded =>
        obtain rfl := Option.some.inj h
        have hten : (Json.tenTo exponent.toNat).isFinite = true :=
          (atLeastOne_tenTo (by omega)).isFinite
        exact (isFinite_or_isInf_mul hfits.isFinite hten).resolve_right hbounded
  split at h
  · obtain rfl := Option.some.inj h
    exact (hdivided (by omega)).isFinite
  split at h
  · obtain rfl := Option.some.inj h
    have hten : AtLeastOne (Json.tenTo (-exponent - 308).toNat) := atLeastOne_tenTo (by omega)
    exact ((hdivided (by decide)).div hten (by decide) (by decide)).isFinite
  · obtain rfl := Option.some.inj h
    decide

end ObjectQuery.Decimal
