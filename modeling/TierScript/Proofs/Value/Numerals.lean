import Mathlib.Data.List.Forall2
import TierScript.Proofs.Run.Unrolling

/-!
# Integers and their numerals

The text of an integer is a numeral: an optional minus sign and the decimal digits of the magnitude.
Values are read as numbers in three ways and printed in one, and these four have to agree on every
numeral before a script may hold a number as a string.

* `readInt?_ofInt`: what is printed reads back, so `ofInt` is injective. `readInt64?_ofInt` is the
  same for all integers of 64 bits, the least one included.
* `Respells`: a value, or the text of an integer in place of the integer. Neither of the views that
  the evaluator has of its operands tells the two apart.
* `integer_numerals_interchangeable`: arithmetic, comparisons and ranges give the same with numerals
  in place of integers.
-/

namespace TierScript

namespace Decimal

/-! ## Reading back -/

theorem isDigit_of_mem_digits {n : Nat} {c : Char} (hc : c ∈ Nat.toDigits 10 n) :
    c.isDigit = true :=
  Nat.isDigit_of_mem_toDigits (by decide) (by decide) hc

theorem splitSign_signed (negative : Bool) {c : Char} {cs : List Char} (hc : c.isDigit = true) :
    splitSign (signed negative (c :: cs)) = (negative, c :: cs) := by
  have hminus : c ≠ '-' := fun h => by simp [h] at hc
  have hplus : c ≠ '+' := fun h => by simp [h] at hc
  cases negative with
  | true => rfl
  | false => simp [signed, splitSign, hminus, hplus]

theorem signed_natAbs (n : Int) :
    (if decide (n < 0) = true then -(n.natAbs : Int) else n.natAbs) = n := by
  by_cases hn : n < 0
  · simp only [hn, decide_true, if_true]
    omega
  · simp only [hn, decide_false]
    show (n.natAbs : Int) = n
    omega

/-- What is printed reads back. -/
theorem readInt?_ofInt (n : Int) : readInt? (ofInt n) = some n := by
  have hdigits : (Nat.toDigits 10 n.natAbs).all Char.isDigit = true :=
    List.all_eq_true.mpr fun c hc => isDigit_of_mem_digits hc
  have hvalue : Nat.ofDigitChars 10 (Nat.toDigits 10 n.natAbs) 0 = n.natAbs :=
    Nat.ofDigitChars_toDigits (by decide) (by decide)
  cases htext : Nat.toDigits 10 n.natAbs with
  | nil => exact absurd htext Nat.toDigits_ne_nil
  | cons c cs =>
    have hc : c.isDigit = true := isDigit_of_mem_digits (htext ▸ List.mem_cons_self)
    rw [htext] at hdigits hvalue
    rw [readInt?, ofInt, htext, splitSign_signed _ hc]
    simp only [List.isEmpty_cons, hdigits, hvalue, signed_natAbs, Bool.not_true, Bool.or_self,
      Bool.false_eq_true, if_false]

theorem ofInt_injective {a b : Int} (h : ofInt a = ofInt b) : a = b := by
  have hread := readInt?_ofInt a
  rw [h, readInt?_ofInt] at hread
  exact (Option.some.inj hread).symm

theorem readInt64?_ofInt (n : Int64) : readInt64? (ofInt n.toInt) = some n := by
  have hrange : -2 ^ 63 ≤ n.toInt ∧ n.toInt < 2 ^ 63 := ⟨n.le_toInt, n.toInt_lt⟩
  rw [readInt64?, readInt?_ofInt, Option.bind_some, if_pos hrange, Int64.ofInt_toInt]

/-! ## The characters of a numeral -/

theorem eq_minus_or_isDigit_of_mem_ofInt {n : Int} {c : Char} (hc : c ∈ ofInt n) :
    c = '-' ∨ c.isDigit = true := by
  rw [ofInt, signed] at hc
  split at hc
  · exact (List.mem_cons.mp hc).imp_right isDigit_of_mem_digits
  · exact .inr (isDigit_of_mem_digits hc)

theorem isBlank_of_mem_ofInt {n : Int} {c : Char} (hc : c ∈ ofInt n) :
    Text.isBlank c = false := by
  obtain rfl | hdigit := eq_minus_or_isDigit_of_mem_ofInt hc
  · decide
  · have hrange : 48 ≤ c.toNat ∧ c.toNat ≤ 57 := Char.isDigit_iff_toNat.mp hdigit
    rw [← Bool.not_eq_true, Text.isBlank, Text.Ranges.contains_iff]
    simp only [Text.blankRanges, List.mem_cons, List.not_mem_nil, or_false]
    rintro ⟨r, hr, hle⟩
    rcases hr with rfl | rfl | rfl | rfl | rfl | rfl | rfl | rfl | rfl | rfl <;> omega

theorem trim_ofInt (n : Int) : Text.trim (ofInt n) = ofInt n := by
  have hstays : ∀ cs : List Char, (∀ c ∈ cs, c ∈ ofInt n) → cs.dropWhile Text.isBlank = cs := by
    intro cs hcs
    cases cs with
    | nil => rfl
    | cons c cs =>
      have hc := isBlank_of_mem_ofInt (hcs c List.mem_cons_self)
      exact List.dropWhile_cons_of_neg (by simp [hc])
  rw [Text.trim, hstays _ fun _ h => h, hstays _ fun _ h => List.mem_reverse.mp h,
    List.reverse_reverse]

theorem not_contains_point (n : Int) : (ofInt n).contains '.' = false := by
  rw [← Bool.not_eq_true, List.contains_iff_mem]
  intro hc
  obtain h | h := eq_minus_or_isDigit_of_mem_ofInt hc <;> exact absurd h (by decide)

end Decimal

namespace Value

theorem toList_render (v : Value) : v.render.toList = v.text := String.toList_ofList

theorem ofText?_text_int (n : Int64) : Number.ofText? (int n).text = some (.int n) := by
  simp only [text, Number.ofText?, Decimal.trim_ofInt, Decimal.not_contains_point,
    Decimal.readInt64?_ofInt, Option.map_some, Bool.false_eq_true, if_false]

/-! ## Numerals in place of integers -/

/-- The second value is the first one, or its text if the first one is an integer. -/
inductive Respells : Value → Value → Prop
  | same (v : Value) : Respells v v
  | numeral (n : Int64) : Respells (int n) (str (int n).render)

namespace Respells

variable {v v' w w' : Value}

theorem text_eq (h : Respells v v') : v'.text = v.text := by
  cases h with
  | same => rfl
  | numeral n => exact toList_render (int n)

theorem toNumber_eq (h : Respells v v') : v'.toNumber = v.toNumber := by
  cases h with
  | same => rfl
  | numeral n => simp only [toNumber, toList_render, ofText?_text_int]

theorem toFloat?_eq (h : Respells v v') : v'.toFloat? = v.toFloat? := by
  cases h with
  | same => rfl
  | numeral n =>
    simp only [toFloat?, toList_render, ofText?_text_int, Option.map_some, Number.toFloat]

theorem toInteger?_eq (h : Respells v v') : v'.toInteger? = v.toInteger? := by
  cases h with
  | same => rfl
  | numeral n => simp only [toInteger?, toList_render, text, Decimal.trim_ofInt,
      Decimal.readInt64?_ofInt]

theorem toNumbers_eq {vs vs' : List Value} (h : List.Forall₂ Respells vs vs') :
    toNumbers vs' = toNumbers vs := by
  induction h with
  | nil => rfl
  | cons hv _ ih => simp only [toNumbers, hv.toNumber_eq, ih]

theorem foldNumeric_eq {vs vs' : List Value} (h : List.Forall₂ Respells vs vs')
    (ops : List ArithOp) : foldNumeric vs' ops = foldNumeric vs ops := by
  simp only [foldNumeric, toNumbers_eq h]

theorem compareValues_eq (op : RelOp) (hv : Respells v v') (hw : Respells w w') :
    compareValues op v' w' = compareValues op v w := by
  simp only [compareValues, ordered, hv.text_eq, hw.text_eq, hv.toFloat?_eq, hw.toFloat?_eq]

/-- A loop has the same rounds. Only the warning of a loop without any names the types of its
    ends. -/
theorem rounds?_eq (env : Env) (body : Linked Block) (dest : Term) (hv : Respells v v')
    (hw : Respells w w') : Eval.rounds? env body dest v' w' = Eval.rounds? env body dest v w := by
  cases hw with
  | same => simp only [Eval.rounds?, hv.toInteger?_eq]
  | numeral n =>
    simp only [Eval.rounds?, hv.toInteger?_eq, (numeral n).toInteger?_eq]
    cases v.toInteger? with
    | some => rfl
    | none => cases dest.plainVar? <;> rfl

theorem forLoop_eq {env : Env} {body : Linked Block} {dest : Term} (hv : Respells v v')
    (hw : Respells w w') (hrounds : Eval.rounds? env body dest v w ≠ none) (fuel : Nat)
    (span : Span) (m : Machine) :
    Eval.forLoop env fuel dest v' w' body span m = Eval.forLoop env fuel dest v w body span m := by
  cases fuel with
  | zero => simp only [Eval.forLoop]
  | succ fuel =>
    simp only [Eval.forLoop, hv.toInteger?_eq, hw.toInteger?_eq]
    split
    · rfl
    next hno =>
      have harray : ∃ x items, dest.plainVar? = some x ∧ w = array items := by
        unfold Eval.rounds? at hrounds
        split at hrounds
        next hfirst hlast => exact (hno _ _ hfirst hlast).elim
        next =>
          split at hrounds
          next hplain _ => exact ⟨_, _, hplain, rfl⟩
          next => exact absurd rfl hrounds
      obtain ⟨x, items, hplain, rfl⟩ := harray
      cases hw
      simp only [hplain]

end Respells

end Value

open Value

/-- An integer may be written as its text: the text reads as that integer, and numerals in place of
    any integers among the operands change neither what arithmetic gives, value or error, nor a
    comparison, nor an end of a range, so that a loop has the same rounds and runs them alike. -/
theorem integer_numerals_interchangeable :
    (∀ n : Int64, Number.ofText? (int n).render.toList = some (.int n)) ∧
    (∀ vs vs' ops, List.Forall₂ Respells vs vs' → foldNumeric vs' ops = foldNumeric vs ops) ∧
    (∀ v v' w w', Respells v v' → Respells w w' →
      (∀ op, compareValues op v' w' = compareValues op v w) ∧
      v'.toInteger? = v.toInteger? ∧ w'.toInteger? = w.toInteger? ∧
      ∀ env body dest, Eval.rounds? env body dest v' w' = Eval.rounds? env body dest v w ∧
        (Eval.rounds? env body dest v w ≠ none → ∀ fuel span m,
          Eval.forLoop env fuel dest v' w' body span m =
            Eval.forLoop env fuel dest v w body span m)) := by
  refine ⟨fun n => ?_, fun vs vs' ops h => Respells.foldNumeric_eq h ops, ?_⟩
  · rw [toList_render, ofText?_text_int]
  · intro v v' w w' hv hw
    refine ⟨fun op => Respells.compareValues_eq op hv hw, hv.toInteger?_eq, hw.toInteger?_eq, ?_⟩
    intro env body dest
    exact ⟨Respells.rounds?_eq env body dest hv hw, fun hrounds fuel span m =>
      Respells.forLoop_eq hv hw hrounds fuel span m⟩

/-- The sum `-9223372036854775808 / -1 + 1`, the comparison of the least integer with a half, and
    the loop from `-2` to `0`, each with texts for some of its integers: the quotient still wraps
    around, and there are still three rounds. -/
theorem integer_numerals_interchangeable_least :
    foldNumeric [.str "-9223372036854775808", .int (-1), .str "1"] [.div, .add] =
        .ok (.int (Int64.minValue + 1)) ∧
      compareValues .lt (.str "-9223372036854775808") (.float 0.5) =
        compareValues .lt (.int Int64.minValue) (.float 0.5) ∧
      (Eval.rounds? default default default (.str "-2") (.int 0)).map List.length = some 3 ∧
      Eval.forLoop default 9 default (.str "-2") (.int 0) default default default =
        Eval.forLoop default 9 default (.int (-2)) (.int 0) default default default := by
  have hleast : Respells (.int Int64.minValue) (.str "-9223372036854775808") :=
    (by decide +kernel : (int Int64.minValue).render = "-9223372036854775808") ▸ .numeral _
  have hone : Respells (.int 1) (.str "1") :=
    (by decide +kernel : (int 1).render = "1") ▸ .numeral _
  have hfirst : Respells (.int (-2)) (.str "-2") :=
    (by decide +kernel : (int (-2)).render = "-2") ▸ .numeral _
  have hfold := integer_numerals_interchangeable.2.1 [.int Int64.minValue, .int (-1), .int 1]
    [.str "-9223372036854775808", .int (-1), .str "1"] [.div, .add]
    (.cons hleast (.cons (.same _) (.cons hone .nil)))
  have hless := (integer_numerals_interchangeable.2.2 _ _ _ _ hleast (.same (.float 0.5))).1 .lt
  obtain ⟨-, -, -, hloop⟩ := integer_numerals_interchangeable.2.2 _ _ _ _ hfirst (.same (.int 0))
  obtain ⟨hrounds, hruns⟩ := hloop default default default
  have hthree : (Eval.rounds? default default default (.int (-2)) (.int 0)).map List.length =
      some 3 := rfl
  refine ⟨hfold.trans (by decide +kernel), hless, hrounds ▸ hthree, hruns ?_ 9 default default⟩
  intro hnone
  cases hnone ▸ hthree

end TierScript
