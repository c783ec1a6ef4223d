import Mathlib.Algebra.Order.Ring.Int
import TierScript.Decimal.Binary64

/-!
# Rounding integers to 53 bits

The double nearest to an integer is an integer again: its 53 leading bits, rounded by what is cut
off. Which one it is can be said without any floating-point number.

* `nearestNat`, `nearestInt`: the nearest double, as an integer.
* `IsDouble`: what is a natural number of 53 bits times a power of two.
* `nearestNat_nearest`: no such number is nearer.
* `nearestInt_mono`: rounding keeps the order, although it may make different integers equal.
-/

namespace TierScript.Binary64

/-- A natural number that is one of 53 bits times a power of two. -/
def IsDouble (d : Nat) : Prop := ∃ m k, m < 2 ^ 53 ∧ d = m * 2 ^ k

/-- The double nearest to a natural number, a tie going to the even mantissa. -/
def nearestNat (n : Nat) : Nat :=
  let unit := 2 ^ (n.log2 - 52)
  roundDiv n unit * unit

/-- The double nearest to an integer, a tie going to the even mantissa. -/
def nearestInt (n : Int) : Int := n.sign * nearestNat n.natAbs

/-! ## Rounding a quotient -/

theorem roundDiv_one (num : Nat) : roundDiv num 1 = num := by
  simp [roundDiv, Nat.mod_one]

variable {num den : Nat}

theorem roundDiv_bounds (num : Nat) (hden : 0 < den) :
    2 * (roundDiv num den * den) ≤ 2 * num + den ∧
      2 * num ≤ 2 * (roundDiv num den * den) + den := by
  have hmod := Nat.mod_lt num hden
  have hnum := Nat.div_add_mod' num den
  rw [roundDiv]
  split
  next h => omega
  next h =>
    rw [Nat.succ_mul (num / den)]
    omega

theorem roundDiv_le (hden : 0 < den) {q : Nat} (h : num ≤ q * den) : roundDiv num den ≤ q := by
  have hbounds := (roundDiv_bounds num hden).1
  by_contra hlt
  have hnext : (q + 1) * den ≤ roundDiv num den * den := Nat.mul_le_mul_right den (by omega)
  rw [Nat.succ_mul] at hnext
  omega

theorem le_roundDiv (hden : 0 < den) {q : Nat} (h : q * den ≤ num) : q ≤ roundDiv num den := by
  have hbounds := (roundDiv_bounds num hden).2
  by_contra hlt
  have hnext : (roundDiv num den + 1) * den ≤ q * den := Nat.mul_le_mul_right den (by omega)
  rw [Nat.succ_mul] at hnext
  omega

/-- No multiple of the denominator is nearer to the numerator. -/
theorem roundDiv_mul_nearest (num : Nat) (hden : 0 < den) (q : Nat) :
    ((num : Int) - (roundDiv num den * den : Nat)).natAbs ≤
      ((num : Int) - (q * den : Nat)).natAbs := by
  obtain ⟨hlow, hhigh⟩ := roundDiv_bounds num hden
  obtain h | rfl | h := Nat.lt_trichotomy q (roundDiv num den)
  · have hnext : (q + 1) * den ≤ roundDiv num den * den := Nat.mul_le_mul_right den h
    rw [Nat.succ_mul] at hnext
    omega
  · exact Nat.le_refl _
  · have hnext : (roundDiv num den + 1) * den ≤ q * den := Nat.mul_le_mul_right den h
    rw [Nat.succ_mul] at hnext
    omega

/-! ## The nearest double -/

/-- Numbers of 53 bits stay as they are. -/
theorem nearestNat_of_lt {n : Nat} (h : n < 2 ^ 53) : nearestNat n = n := by
  have hlog : n.log2 - 52 = 0 := by
    by_cases hn : n = 0
    · subst hn
      rfl
    · have := (Nat.log2_lt hn).mpr h
      omega
  rw [nearestNat, hlog, Nat.pow_zero, Nat.mul_one, roundDiv_one]

/-- A larger number, cut into its 53 leading bits and the rest. -/
theorem unit_bounds {n : Nat} (h : 2 ^ 53 ≤ n) :
    2 ^ 52 * 2 ^ (n.log2 - 52) ≤ n ∧ n < 2 ^ 53 * 2 ^ (n.log2 - 52) := by
  have hlog : 53 ≤ n.log2 := (Nat.le_log2 (by omega)).mpr h
  have hlow : 2 ^ n.log2 ≤ n := Nat.log2_self_le (by omega)
  have hhigh : n < 2 ^ (n.log2 + 1) := Nat.lt_log2_self
  rw [← Nat.pow_add, ← Nat.pow_add]
  rw [show 52 + (n.log2 - 52) = n.log2 by omega, show 53 + (n.log2 - 52) = n.log2 + 1 by omega]
  exact ⟨hlow, hhigh⟩

theorem roundDiv_unit_bounds {n : Nat} (h : 2 ^ 53 ≤ n) :
    2 ^ 52 ≤ roundDiv n (2 ^ (n.log2 - 52)) ∧ roundDiv n (2 ^ (n.log2 - 52)) ≤ 2 ^ 53 := by
  have hunit : 0 < 2 ^ (n.log2 - 52) := Nat.two_pow_pos _
  obtain ⟨hlow, hhigh⟩ := unit_bounds h
  exact ⟨le_roundDiv hunit hlow, roundDiv_le hunit hhigh.le⟩

theorem isDouble_nearestNat (n : Nat) : IsDouble (nearestNat n) := by
  by_cases h : n < 2 ^ 53
  · exact ⟨n, 0, h, by rw [nearestNat_of_lt h, Nat.pow_zero, Nat.mul_one]⟩
  · have hround := (roundDiv_unit_bounds (Nat.le_of_not_lt h)).2
    obtain heq | hlt := hround.eq_or_lt
    -- the mantissa that is rounded up to 54 bits
    · refine ⟨2 ^ 52, n.log2 - 52 + 1, by decide, ?_⟩
      rw [nearestNat, heq, Nat.pow_succ 2 (n.log2 - 52)]
      omega
    · exact ⟨_, _, hlt, rfl⟩

theorem nearestNat_nearest (n : Nat) {d : Nat} (hd : IsDouble d) :
    ((n : Int) - nearestNat n).natAbs ≤ ((n : Int) - d).natAbs := by
  by_cases h : n < 2 ^ 53
  · rw [nearestNat_of_lt h]
    omega
  · obtain ⟨m, k, hm, rfl⟩ := hd
    obtain ⟨hlow, -⟩ := unit_bounds (Nat.le_of_not_lt h)
    have hnearest := roundDiv_mul_nearest n (Nat.two_pow_pos (n.log2 - 52))
    by_cases hk : n.log2 - 52 ≤ k
    · have hmul : m * 2 ^ k = m * 2 ^ (k - (n.log2 - 52)) * 2 ^ (n.log2 - 52) := by
        rw [Nat.mul_assoc, ← Nat.pow_add, Nat.sub_add_cancel hk]
      rw [hmul]
      exact hnearest _
    -- a smaller power of two keeps the number below all those with the leading bit of `n`
    · have hpow : 2 ^ (k + 1) ≤ 2 ^ (n.log2 - 52) :=
        Nat.pow_le_pow_right (by decide) (by omega)
      have hmk : m * 2 ^ k < 2 ^ 53 * 2 ^ k := Nat.mul_lt_mul_of_pos_right hm (Nat.two_pow_pos k)
      have hfar := hnearest (2 ^ 52)
      rw [Nat.pow_succ] at hpow
      rw [nearestNat]
      omega

theorem nearestNat_mono {a b : Nat} (h : a ≤ b) : nearestNat a ≤ nearestNat b := by
  obtain rfl | hlt := h.eq_or_lt
  · exact Nat.le_refl _
  · have ha := nearestNat_nearest a (isDouble_nearestNat b)
    have hb := nearestNat_nearest b (isDouble_nearestNat a)
    omega

/-! ## Both signs -/

theorem nearestInt_natCast (n : Nat) : nearestInt n = nearestNat n := by
  obtain rfl | hn := Nat.eq_zero_or_pos n
  · simp [nearestInt, nearestNat_of_lt]
  · rw [nearestInt, Int.sign_eq_one_of_pos (by omega), Int.natAbs_natCast, Int.one_mul]

theorem nearestInt_neg (n : Int) : nearestInt (-n) = -nearestInt n := by
  rw [nearestInt, nearestInt, Int.sign_neg, Int.natAbs_neg, Int.neg_mul]

theorem nearestInt_mono {a b : Int} (h : a ≤ b) : nearestInt a ≤ nearestInt b := by
  obtain ⟨m, rfl | rfl⟩ := a.eq_nat_or_neg <;> obtain ⟨n, rfl | rfl⟩ := b.eq_nat_or_neg <;>
    simp only [nearestInt_neg, nearestInt_natCast]
  · have := nearestNat_mono (a := m) (b := n) (by omega)
    omega
  · have hm : m = 0 := by omega
    have hn : n = 0 := by omega
    subst hm hn
    decide
  · omega
  · have := nearestNat_mono (a := n) (b := m) (by omega)
    omega

end TierScript.Binary64
