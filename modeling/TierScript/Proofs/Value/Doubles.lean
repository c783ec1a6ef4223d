import Mathlib
import TierScript.Proofs.Value.Rounding

/-!
# Integers as doubles

Core says what its floating-point operations compute through unpacked numbers: a sign, a mantissa
and an exponent. Here these numbers are related to the integers that they are, so that the order of
two integers seen as doubles becomes an order of integers.

* `Shifted`: an extended mantissa that is `n` without its last bits. The round bit and the sticky
  bit say of these bits just what rounding asks, `Shifted.roundedMantissa`.
* `Represents`: an unpacked number in canonical form, and the integer that it is.
* `represents_ofNat`: the conversion of a natural number gives the nearest double.
* `floatOfInt64_lt_iff`, `floatOfInt64_le_iff`: the order of these doubles is that of the integers
  that they are.
-/

namespace TierScript.Binary64

open Float.Model Float.Model.UnpackedFloat Float.Model.Format

/-! ## Shifting to the right -/

/-- The extended mantissa `em` is `n` shifted by `k`: its bits say whether what is cut off is at
    least a half, and whether it is neither nothing nor exactly a half. -/
structure Shifted (n k : Nat) (em : ExtendedMantissa) : Prop where
  mantissa : em.mantissa = n / 2 ^ k
  roundBit : em.roundBit = true ↔ 2 ^ k ≤ 2 * (n % 2 ^ k)
  stickyBit : em.stickyBit = true ↔ n % 2 ^ k ≠ 0 ∧ 2 * (n % 2 ^ k) ≠ 2 ^ k

variable {n k : Nat} {em : ExtendedMantissa}

theorem Shifted.zero (n : Nat) : Shifted n 0 (.ofMantissaAndAccuracy n .exact) := by
  refine ⟨?_, ?_, ?_⟩ <;> simp [ExtendedMantissa.ofMantissaAndAccuracy, Nat.mod_one]

theorem Shifted.shiftRightOne (h : Shifted n k em) : Shifted n (k + 1) em.shiftRightOne := by
  have hmod : n % 2 ^ (k + 1) = n % 2 ^ k + 2 ^ k * (n / 2 ^ k % 2) := Nat.mod_pow_succ
  have hlt : n % 2 ^ k < 2 ^ k := Nat.mod_lt n (Nat.two_pow_pos k)
  have hpow : 2 ^ (k + 1) = 2 ^ k * 2 := Nat.pow_succ 2 k
  refine ⟨?_, ?_, ?_⟩
  · rw [ExtendedMantissa.shiftRightOne, h.mantissa, hpow, Nat.div_div_eq_div_mul]
  all_goals
    simp only [ExtendedMantissa.shiftRightOne, h.mantissa, Bool.or_eq_true, h.roundBit, h.stickyBit,
      bne_iff_ne]
    obtain hbit | hbit := Nat.mod_two_eq_zero_or_one (n / 2 ^ k) <;>
      rw [hmod, hbit, hpow] <;> omega

theorem Shifted.shiftRight (n k : Nat) :
    Shifted n k (ExtendedMantissa.ofMantissaAndAccuracy n .exact >>> k) := by
  induction k with
  | zero => exact .zero n
  | succ k ih => exact ih.shiftRightOne

/-- The two bits are what is asked for to round to the nearest mantissa. -/
theorem Shifted.roundedMantissa (h : Shifted n k em) :
    em.roundedMantissa = roundDiv n (2 ^ k) := by
  obtain ⟨mantissa, roundBit, stickyBit⟩ := em
  obtain ⟨hmantissa, hround, hsticky⟩ := h
  simp only at hmantissa hround hsticky
  subst hmantissa
  have hpos : 0 < 2 ^ k := Nat.two_pow_pos k
  rw [roundDiv]
  cases roundBit <;> cases stickyBit <;>
    simp only [ExtendedMantissa.roundedMantissa, ExtendedMantissa.accuracy,
      Accuracy.roundToNearestEven, Bool.false_eq_true, false_iff, true_iff] at hround hsticky ⊢ <;>
    split <;> omega

/-! ## Canonical form -/

/-- An unpacked number in canonical form with at most 64 bits before the point, and the integer that
    it is. -/
inductive Represents : UnpackedFloat → Int → Prop
  | zero (s : Sign) : Represents (.zero s) 0
  | finite {s : Sign} {m : Nat} {e : Nat} {v : Nat} (hm : 0 < m) (hlow : 2 ^ 52 ≤ m)
    (hhigh : m < 2 ^ 53) (he : e ≤ 64) (hv : v * 2 ^ 52 = m * 2 ^ e) :
    Represents (.finite s m (e - 52) hm) (s.apply v)

variable {s : Sign} {m : Nat} {v : Nat}

theorem log2_of_bounds (hlow : 2 ^ k ≤ n) (hhigh : n < 2 ^ (k + 1)) : n.log2 = k :=
  (Nat.log2_eq_iff (by have := Nat.two_pow_pos k; omega)).mpr ⟨hlow, hhigh⟩

theorem shiftToTargetExponent_eq {e : Int} (hlog : m.log2 = 52 + k) (he : -1074 ≤ e) :
    shiftToTargetExponent binary64 m e .exact =
      (ExtendedMantissa.ofMantissaAndAccuracy m .exact >>> k, e + k) := by
  have hbits : binary64.mantissaBits = 53 := rfl
  have hmin : binary64.minExponent = -1074 := rfl
  have htarget : binary64.targetExponent (totalExponent m e) = e + k := by
    rw [targetExponent, totalExponent, hlog, hbits, hmin]
    omega
  have hamount : (e + k - e).toNat = k := by omega
  rw [shiftToTargetExponent, htarget, shiftToExponent, hamount]

theorem roundWithAccuracy_eq {e e₁ e₂ : Int} {em₁ em₂ : ExtendedMantissa}
    (h₁ : shiftToTargetExponent binary64 m e .exact = (em₁, e₁))
    (h₂ : shiftToTargetExponent binary64 em₁.roundedMantissa e₁ .exact = (em₂, e₂))
    (hpos : 0 < em₂.mantissa) :
    roundWithAccuracy binary64 s m e .exact = .finite s em₂.mantissa e₂ hpos := by
  simp only [roundWithAccuracy, h₁, h₂]
  rw [dif_neg (by omega)]

/-- The rounding of a mantissa that has its 53 bits or more, when `below` of them are below the
    point. -/
theorem represents_roundWithAccuracy (s : Sign) {below : Nat} (hlog : m.log2 = 52 + k)
    (hk : k ≤ 11) (hbelow : below ≤ 52)
    (hv : v * 2 ^ below = roundDiv m (2 ^ k) * 2 ^ k) :
    Represents (roundWithAccuracy binary64 s m (-below) .exact) (s.apply v) := by
  have hpos : 0 < 2 ^ k := Nat.two_pow_pos k
  have hm : m ≠ 0 := by
    rintro rfl
    rw [Nat.log2_zero] at hlog
    omega
  obtain ⟨hlow, hhigh⟩ := (Nat.log2_eq_iff hm).mp hlog
  rw [Nat.pow_add] at hlow
  rw [Nat.add_right_comm, Nat.pow_add] at hhigh
  have hlow : 2 ^ 52 ≤ roundDiv m (2 ^ k) := le_roundDiv hpos hlow
  have hhigh : roundDiv m (2 ^ k) ≤ 2 ^ 53 := roundDiv_le hpos hhigh.le
  have hvalue : v * 2 ^ 52 = roundDiv m (2 ^ k) * 2 ^ (k + (52 - below)) := by
    rw [Nat.pow_add, ← Nat.mul_assoc, ← hv, Nat.mul_assoc, ← Nat.pow_add,
      Nat.add_sub_cancel' hbelow]
  have hfirst := shiftToTargetExponent_eq (e := -below) hlog (by omega)
  have hshifted := Shifted.shiftRight m k
  generalize ExtendedMantissa.ofMantissaAndAccuracy m .exact >>> k = em₁ at hfirst hshifted
  rw [← hshifted.roundedMantissa] at hlow hhigh hvalue
  obtain heq | hlt := hhigh.eq_or_lt
  -- one bit too many: a second shift, which drops a zero
  · have hcarry : (2 ^ 53).log2 = 52 + 1 := by decide
    have hsecond := shiftToTargetExponent_eq (e := -below + k) (heq ▸ hcarry) (by omega)
    have hmantissa := (Shifted.shiftRight (2 ^ 53) 1).mantissa
    rw [← heq] at hmantissa
    rw [roundWithAccuracy_eq hfirst hsecond (by omega)]
    have hexponent : -(below : Int) + k + (1 : Nat) = (k + (52 - below) + 1 : Nat) - 52 := by omega
    simp only [hmantissa, hexponent]
    refine .finite _ (by omega) (by omega) (by omega) ?_
    rw [hvalue, heq, Nat.pow_succ 2 (k + (52 - below))]
    omega
  · have hfits := log2_of_bounds (k := 52 + 0) hlow hlt
    have hsecond := shiftToTargetExponent_eq (e := -below + k) hfits (by omega)
    have hmantissa := (Shifted.shiftRight em₁.roundedMantissa 0).mantissa
    rw [Nat.pow_zero, Nat.div_one] at hmantissa
    rw [roundWithAccuracy_eq hfirst hsecond (by omega)]
    have hexponent : -(below : Int) + k + (0 : Nat) = (k + (52 - below) : Nat) - 52 := by omega
    simp only [hmantissa, hexponent]
    exact .finite _ hlow hlt (by omega) hvalue

/-! ## Packing -/

theorem toNat_leading_append (v : BitVec 52) : (1#1 ++ v).toNat = 2 ^ 52 + v.toNat := by
  rw [BitVec.toNat_append, ← Nat.shiftLeft_add_eq_or_of_lt v.isLt]
  rfl

/-- A canonical number is found again in its bits. -/
theorem Represents.unpack_pack {x : UnpackedFloat} {i : Int} (h : Represents x i) :
    unpack binary64 (pack binary64 x) = x := by
  cases h with
  | zero s => cases s <;> rfl
  | @finite s m e v hm hlow hhigh he hv =>
    have hlog : m.log2 = 52 := log2_of_bounds hlow hhigh
    have hbias : binary64.exponentBias = 1023 := rfl
    have hbiased : ((e : Int) - 52 + binary64.exponentBias + (52 : Nat)).toNat = e + 1023 := by
      rw [hbias]
      omega
    have hpacked : pack binary64 (.finite s m (e - 52) hm) =
        packComponents binary64 s (BitVec.ofNat 11 (e + 1023)) (BitVec.ofNat 52 m) := by
      simp only [UnpackedFloat.pack, hbiased, hlog]
      rw [if_neg (by omega), if_pos (by decide)]
    have hfield : (BitVec.ofNat 11 (e + 1023)).toNat = e + 1023 := by
      rw [BitVec.toNat_ofNat]
      omega
    have hmantissa : (1#1 ++ BitVec.ofNat 52 m).toNat = m := by
      rw [toNat_leading_append, BitVec.toNat_ofNat]
      omega
    have hexponent : ((e + 1023 : Nat) : Int) - (binary64.exponentBias + (52 : Nat)) = e - 52 := by
      rw [hbias]
      omega
    have hordinary (b : BitVec 11) (hb : b.toNat = 0 ∨ b.toNat = 2047) :
        BitVec.ofNat 11 (e + 1023) ≠ b := by
      rintro rfl
      omega
    rw [hpacked, UnpackedFloat.unpack]
    simp only [unpackExponent_packComponents, unpackMantissa_packComponents,
      unpackSign_packComponents, Sign.ofBitVec_toBitVec, hfield, hmantissa, hexponent]
    rw [if_neg (hordinary _ (.inr rfl)), if_neg (hordinary _ (.inl rfl))]

theorem Represents.repack {x : UnpackedFloat} {i : Int} (h : Represents x i) :
    Represents (Float.Model.pack x).unpack i := by
  show Represents (unpack binary64 (pack binary64 x)) i
  rw [h.unpack_pack]
  exact h

/-! ## Conversion -/

theorem log2_shiftLeft (hn : n ≠ 0) : (n <<< k).log2 = n.log2 + k := by
  obtain ⟨hlow, hhigh⟩ := (Nat.log2_eq_iff hn).mp rfl
  have hpos : 0 < 2 ^ k := Nat.two_pow_pos k
  rw [Nat.shiftLeft_eq]
  refine log2_of_bounds ?_ ?_
  · rw [Nat.pow_add]
    exact Nat.mul_le_mul_right _ hlow
  · rw [Nat.add_right_comm, Nat.pow_add]
    exact Nat.mul_lt_mul_of_pos_right hhigh hpos

/-- A number with fewer than 53 bits is shifted to the left before it is rounded. -/
theorem ofNat_of_pos (hn : 0 < n) : ofNat binary64 n =
    roundWithAccuracy binary64 .positive (n <<< (52 - n.log2)) (-(52 - n.log2 : Nat)) .exact := by
  have htarget : binary64.targetExponent (totalExponent n 0) = n.log2 - 52 := by
    rw [targetExponent, totalExponent, show binary64.mantissaBits = 53 from rfl,
      show binary64.minExponent = -1074 from rfl]
    omega
  have hamount : (-((n.log2 : Int) - 52)).toNat = 52 - n.log2 := by omega
  have hsign : compare (n : Int) 0 = .gt := Int.compare_eq_gt.mpr (by omega)
  simp only [UnpackedFloat.ofNat, UnpackedFloat.ofInt, UnpackedFloat.normalize, hsign,
    UnpackedFloat.round, UnpackedFloat.decreaseExponent, Int.toNat_natCast, htarget,
    Int.zero_sub, hamount]

/-- The conversion of a natural number gives the nearest double. -/
theorem represents_ofNat (hn : n < 2 ^ 64) : Represents (ofNat binary64 n) (nearestNat n) := by
  obtain rfl | hpos := Nat.eq_zero_or_pos n
  · exact .zero .positive
  · have hlog : n.log2 < 64 := (Nat.log2_lt (by omega)).mpr hn
    rw [ofNat_of_pos hpos]
    refine represents_roundWithAccuracy (k := n.log2 - 52) .positive ?_ (by omega) (by omega) ?_
    · rw [log2_shiftLeft (by omega)]
      omega
    · by_cases hbits : n < 2 ^ 53
      · have hunit : n.log2 - 52 = 0 := by
          have := (Nat.log2_lt (by omega)).mpr hbits
          omega
        rw [hunit, Nat.pow_zero, roundDiv_one, Nat.mul_one, Nat.shiftLeft_eq,
          nearestNat_of_lt hbits]
      · have hbelow : 52 - n.log2 = 0 := by
          have := (Nat.le_log2 (by omega)).mpr (Nat.le_of_not_lt hbits)
          omega
        rw [hbelow, Nat.pow_zero, Nat.mul_one, Nat.shiftLeft_zero, nearestNat]

theorem Represents.neg {x : UnpackedFloat} {i : Int} (h : Represents x i) :
    Represents x.neg (-i) := by
  cases h with
  | zero s => exact .zero _
  | @finite s m e v hm hlow hhigh he hv =>
    have hsign : -s.apply v = (-s).apply v := by
      cases s with
      | negative => exact Int.neg_neg _
      | positive => rfl
    rw [hsign]
    exact .finite hm hlow hhigh he hv

theorem represents_toFloat (n : UInt64) :
    Represents n.toFloat.toModel.unpack (nearestNat n.toNat) :=
  (represents_ofNat n.toNat_lt).repack

/-- An integer of 64 bits becomes the nearest double. -/
theorem represents_floatOfInt64 (n : Int64) :
    Represents (floatOfInt64 n).toModel.unpack (nearestInt n.toInt) := by
  have hrange := n.le_toInt
  have hrange' := n.toInt_lt
  have hmagnitude : n.toInt.natAbs.toUInt64.toNat = n.toInt.natAbs := by
    rw [Nat.toUInt64_eq, UInt64.toNat_ofNat']
    omega
  have hfloat := represents_toFloat n.toInt.natAbs.toUInt64
  rw [hmagnitude] at hfloat
  rw [floatOfInt64]
  split
  next hneg =>
    have hneg : n.toInt < 0 := Int64.lt_iff_toInt_lt.mp hneg
    have hint : nearestInt n.toInt = -nearestNat n.toInt.natAbs := by
      rw [← nearestInt_natCast, ← nearestInt_neg]
      congr 1
      omega
    rw [hint]
    exact hfloat.neg.repack
  next hpos =>
    have hpos : ¬n.toInt < 0 := fun h => hpos (Int64.lt_iff_toInt_lt.mpr h)
    have hint : nearestInt n.toInt = nearestNat n.toInt.natAbs := by
      rw [← nearestInt_natCast]
      congr 1
      omega
    rw [hint]
    exact hfloat

/-! ## Order -/

/-- The exponents come first, and equal exponents leave it to the mantissas. -/
theorem compare_then_compare {m₁ m₂ e₁ e₂ v₁ v₂ : Nat} (hlow₁ : 2 ^ 52 ≤ m₁) (hhigh₁ : m₁ < 2 ^ 53)
    (hv₁ : v₁ * 2 ^ 52 = m₁ * 2 ^ e₁) (hlow₂ : 2 ^ 52 ≤ m₂) (hhigh₂ : m₂ < 2 ^ 53)
    (hv₂ : v₂ * 2 ^ 52 = m₂ * 2 ^ e₂) :
    (compare ((e₁ : Int) - 52) (e₂ - 52)).then (compare m₁ m₂) = compare (v₁ : Int) v₂ := by
  have hexponents {e₁ e₂ m₁ m₂ v₁ v₂ : Nat} (hhigh : m₁ < 2 ^ 53) (hlow : 2 ^ 52 ≤ m₂)
      (hv₁ : v₁ * 2 ^ 52 = m₁ * 2 ^ e₁) (hv₂ : v₂ * 2 ^ 52 = m₂ * 2 ^ e₂) (he : e₁ < e₂) :
      v₁ < v₂ := by
    have hpow : 2 ^ (e₁ + 1) ≤ 2 ^ e₂ := Nat.pow_le_pow_right (by decide) he
    have h₁ : m₁ * 2 ^ e₁ < 2 ^ 53 * 2 ^ e₁ :=
      Nat.mul_lt_mul_of_pos_right hhigh (Nat.two_pow_pos e₁)
    have h₂ : 2 ^ 52 * 2 ^ e₂ ≤ m₂ * 2 ^ e₂ := Nat.mul_le_mul_right _ hlow
    rw [Nat.pow_succ] at hpow
    omega
  have hmantissas {e m₁ m₂ v₁ v₂ : Nat} (hv₁ : v₁ * 2 ^ 52 = m₁ * 2 ^ e)
      (hv₂ : v₂ * 2 ^ 52 = m₂ * 2 ^ e) (hm : m₁ < m₂) : v₁ < v₂ := by
    have hmul : m₁ * 2 ^ e < m₂ * 2 ^ e := Nat.mul_lt_mul_of_pos_right hm (Nat.two_pow_pos e)
    omega
  obtain he | rfl | he := Nat.lt_trichotomy e₁ e₂
  · have hv := hexponents hhigh₁ hlow₂ hv₁ hv₂ he
    rw [Int.compare_eq_lt.mpr (by omega), Int.compare_eq_lt.mpr (by omega)]
    rfl
  · rw [Int.compare_eq_eq.mpr rfl]
    obtain hm | rfl | hm := Nat.lt_trichotomy m₁ m₂
    · have hv := hmantissas hv₁ hv₂ hm
      rw [Nat.compare_eq_lt.mpr hm, Int.compare_eq_lt.mpr (by omega)]
      rfl
    · rw [Nat.compare_eq_eq.mpr rfl, Int.compare_eq_eq.mpr (by omega)]
      rfl
    · have hv := hmantissas hv₂ hv₁ hm
      rw [Nat.compare_eq_gt.mpr hm, Int.compare_eq_gt.mpr (by omega)]
      rfl
  · have hv := hexponents hhigh₂ hlow₁ hv₂ hv₁ he
    rw [Int.compare_eq_gt.mpr (by omega), Int.compare_eq_gt.mpr (by omega)]
    rfl

theorem compare_neg_neg (i j : Int) : compare (-i) (-j) = (compare i j).swap := by
  rw [← Std.OrientedCmp.eq_swap]
  cases h : compare j i with
  | lt =>
    rw [Int.compare_eq_lt] at h ⊢
    omega
  | eq =>
    rw [Int.compare_eq_eq] at h ⊢
    omega
  | gt =>
    rw [Int.compare_eq_gt] at h ⊢
    omega

/-- Canonical numbers are compared as the integers that they are. -/
theorem Represents.compare_eq {x y : UnpackedFloat} {i j : Int} (hx : Represents x i)
    (hy : Represents y j) : x.compare y = some (compare i j) := by
  have hpos {m e v : Nat} (hm : 0 < m) (hv : v * 2 ^ 52 = m * 2 ^ e) : 0 < v := by
    have := Nat.mul_pos hm (Nat.two_pow_pos e)
    omega
  have hless {i j : Int} (h : i < j) : some Ordering.lt = some (compare i j) := by
    rw [Int.compare_eq_lt.mpr h]
  have hmore {i j : Int} (h : j < i) : some Ordering.gt = some (compare i j) := by
    rw [Int.compare_eq_gt.mpr h]
  cases hx with
  | zero s =>
    cases hy with
    | zero s' => rfl
    | @finite s' m e v hm _ _ _ hv =>
      have := hpos hm hv
      cases s' with
      | positive => exact hless (show 0 < (v : Int) by omega)
      | negative => exact hmore (show -(v : Int) < 0 by omega)
  | @finite s m e v hm hlow hhigh _ hv =>
    have := hpos hm hv
    cases hy with
    | zero s' =>
      cases s with
      | positive => exact hmore (show 0 < (v : Int) by omega)
      | negative => exact hless (show -(v : Int) < 0 by omega)
    | @finite s' m' e' v' hm' hlow' hhigh' _ hv' =>
      have := hpos hm' hv'
      have horder := compare_then_compare hlow hhigh hv hlow' hhigh' hv'
      cases s with
      | positive =>
        cases s' with
        | positive => exact congrArg some horder
        | negative => exact hmore (show -(v' : Int) < v by omega)
      | negative =>
        cases s' with
        | positive => exact hless (show -(v : Int) < v' by omega)
        | negative => exact congrArg some ((congrArg _ horder).trans (compare_neg_neg _ _).symm)

theorem floatOfInt64_lt_iff (a b : Int64) :
    floatOfInt64 a < floatOfInt64 b ↔ nearestInt a.toInt < nearestInt b.toInt := by
  have hcompare := (represents_floatOfInt64 a).compare_eq (represents_floatOfInt64 b)
  show Float.lt _ _ = true ↔ _
  rw [Float.lt, decide_eq_true_iff]
  show UnpackedFloat.lt _ _ = true ↔ _
  rw [UnpackedFloat.lt, hcompare, ← Int.compare_eq_lt]
  simp

theorem floatOfInt64_le_iff (a b : Int64) :
    floatOfInt64 a ≤ floatOfInt64 b ↔ nearestInt a.toInt ≤ nearestInt b.toInt := by
  have hcompare := (represents_floatOfInt64 a).compare_eq (represents_floatOfInt64 b)
  show Float.le _ _ = true ↔ _
  rw [Float.le, decide_eq_true_iff]
  show UnpackedFloat.le _ _ = true ↔ _
  rw [UnpackedFloat.le, hcompare]
  exact Std.isLE_compare

end TierScript.Binary64
