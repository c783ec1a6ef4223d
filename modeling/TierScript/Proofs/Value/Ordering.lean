import TierScript.Proofs.Value.Doubles
import TierScript.Proofs.Value.Numerals

/-!
# The order of integers

Two integers are equal if their texts are, but which of them comes first is asked of the doubles
that are nearest to them. Up to 53 bits this is one and the same order. Beyond that different
integers can have one nearest double: then neither comes first, although they are not equal.

* `compareValues_eq_int`, `compareValues_lt_int` and the like: each comparison of two integers, told
  by the integers.
* `int_comparisons`: how the five comparisons are related, for all integers of 64 bits.
-/

namespace TierScript

open Binary64

variable (a b : Int64)

theorem compareValues_eq_int : compareValues .eq (.int a) (.int b) = true ↔ a = b := by
  show (Decimal.ofInt a.toInt == Decimal.ofInt b.toInt) = true ↔ a = b
  rw [beq_iff_eq, ← Int64.toInt_inj]
  exact ⟨Decimal.ofInt_injective, congrArg Decimal.ofInt⟩

theorem compareValues_lt_int : compareValues .lt (.int a) (.int b) = true ↔
    nearestInt a.toInt < nearestInt b.toInt :=
  decide_eq_true_iff.trans (floatOfInt64_lt_iff a b)

theorem compareValues_ltEq_int : compareValues .ltEq (.int a) (.int b) = true ↔
    nearestInt a.toInt ≤ nearestInt b.toInt :=
  decide_eq_true_iff.trans (floatOfInt64_le_iff a b)

/-- The other way round. -/
theorem compareValues_gt (v w : Value) : compareValues .gt v w = compareValues .lt w v := by
  simp only [compareValues, ordered]
  cases v.toFloat? <;> cases w.toFloat? <;> rfl

theorem compareValues_gtEq (v w : Value) : compareValues .gtEq v w = compareValues .ltEq w v := by
  simp only [compareValues, ordered]
  cases v.toFloat? <;> cases w.toFloat? <;> rfl

theorem compareValues_ltEq_int_eq_not :
    compareValues .ltEq (.int a) (.int b) = !compareValues .lt (.int b) (.int a) := by
  rw [Bool.eq_iff_iff, Bool.not_eq_true', ← Bool.not_eq_true, compareValues_ltEq_int,
    compareValues_lt_int]
  exact Int.not_lt.symm

/-- The nearest doubles are in the order of the integers, unless they are the same. -/
theorem nearestInt_lt_iff {i j : Int} :
    nearestInt i < nearestInt j ↔ i < j ∧ nearestInt i ≠ nearestInt j := by
  constructor
  · intro h
    refine ⟨?_, Int.ne_of_lt h⟩
    by_contra hle
    have := nearestInt_mono (Int.not_lt.mp hle)
    omega
  · rintro ⟨hlt, hne⟩
    have := nearestInt_mono (Int.le_of_lt hlt)
    omega

/-- Of less, equal and greater at most one holds for two integers, and none only if they are
    different integers with one nearest double. Less holds if the first one is less and has another
    nearest double. Less or equal is the negation of greater, and greater or equal that of less. -/
theorem int_comparisons (a b : Int64) :
    [.lt, .eq, .gt].countP (fun op => compareValues op (.int a) (.int b)) =
        (if a ≠ b ∧ nearestInt a.toInt = nearestInt b.toInt then 0 else 1) ∧
      (compareValues .eq (.int a) (.int b) = true ↔ a = b) ∧
      (compareValues .lt (.int a) (.int b) = true ↔
        a.toInt < b.toInt ∧ nearestInt a.toInt ≠ nearestInt b.toInt) ∧
      (compareValues .gt (.int a) (.int b) = true ↔
        b.toInt < a.toInt ∧ nearestInt a.toInt ≠ nearestInt b.toInt) ∧
      compareValues .ltEq (.int a) (.int b) = !compareValues .gt (.int a) (.int b) ∧
      compareValues .gtEq (.int a) (.int b) = !compareValues .lt (.int a) (.int b) := by
  have heq := compareValues_eq_int a b
  have hlt : compareValues .lt (.int a) (.int b) = true ↔
      a.toInt < b.toInt ∧ nearestInt a.toInt ≠ nearestInt b.toInt :=
    (compareValues_lt_int a b).trans nearestInt_lt_iff
  have hgt : compareValues .gt (.int a) (.int b) = true ↔
      b.toInt < a.toInt ∧ nearestInt a.toInt ≠ nearestInt b.toInt := by
    rw [compareValues_gt, compareValues_lt_int, nearestInt_lt_iff, ne_comm]
  refine ⟨?_, heq, hlt, hgt, ?_, ?_⟩
  · -- equal integers have equal doubles, so that the three conditions exclude each other
    simp only [List.countP_cons, List.countP_nil, heq, hlt, hgt, ne_eq, ← Int64.toInt_inj]
    have hsame : a.toInt = b.toInt → nearestInt a.toInt = nearestInt b.toInt :=
      congrArg nearestInt
    by_cases hnearest : nearestInt a.toInt = nearestInt b.toInt
    · by_cases hab : a.toInt = b.toInt <;> simp [hab, hnearest]
    · obtain hless | hmore := Int.lt_or_gt_of_ne fun h => hnearest (hsame h)
      · simp [hnearest, hless, Int.ne_of_lt hless, Int.lt_asymm hless]
      · simp [hnearest, hmore, Int.ne_of_gt hmore, Int.lt_asymm hmore]
  · rw [compareValues_gt, compareValues_ltEq_int_eq_not]
  · rw [compareValues_gtEq, compareValues_ltEq_int_eq_not]

/-- No double lies between `2 ^ 53` and its second successor, so that its successor, which is
    greater, is in no order to it. -/
theorem int_comparisons_beyond_53_bits :
    (9007199254740992 : Int64) < 9007199254740993 ∧
      compareValues .lt (.int 9007199254740992) (.int 9007199254740993) = false ∧
      [.lt, .eq, .gt].countP
        (fun op => compareValues op (.int 9007199254740992) (.int 9007199254740993)) = 0 := by
  decide +kernel

end TierScript
