import Mathlib.Algebra.Ring.Int.Defs
import Mathlib.Data.List.SplitBy
import TierScript.Value.Arith

/-!
# Folding integers by precedence

`foldNumeric` reads operands and operators once from left to right. Over integers it computes what
the usual precedence of the operators says.

* `runs` splits the terms of an expression before every `+` and `-`. What is left together is joined
  by `*` and `/`, and `runValue` folds it from left to right.
* `sumOfRuns` adds the runs up under their signs. It is an integer without bounds, and the fold
  returns its residue at 64 bits.
* `exactSum` takes the exact product of every run. Without a division it has the same residue.
* `compose_run`: the invariant of the loop, in which the composing value is that of a run.
-/

namespace TierScript

/-- Whether an operator joins its operand to the operand before it. -/
def ArithOp.joins : ArithOp → Bool
  | .mul | .div => true
  | .add | .sub => false

/-- The factor of an operand after the operator in a sum. -/
def ArithOp.sign : ArithOp → Int
  | .sub => -1
  | _ => 1

namespace Folding

open Number (compose)

/-- An operand with the operator before it. -/
abbrev Term := ArithOp × Int64

/-- The terms of an expression: as if a `+` stood before the first operand. -/
def terms (ops : List ArithOp) (ns : List Int64) : List Term :=
  (.add :: ops).zip ns

/-- The maximal parts joined by `*` and `/`. -/
def runs (ts : List Term) : List (List Term) :=
  ts.splitBy fun _ t => t.1.joins

/-- A value multiplied or divided by one more operand. The quotient is truncated, and both are taken
    as a residue at 64 bits. -/
def runStep (part : Int64) : Term → Int64
  | (.div, n) => Int64.ofInt (part.toInt.tdiv n.toInt)
  | (_, n) => Int64.ofInt (part.toInt * n.toInt)

/-- The value of a run, from left to right. The operator before the run has no part in it. -/
def runValue : List Term → Int64
  | [] => 0
  | t :: ts => ts.foldl runStep t.2

/-- The sign of a run is that of the operator before it. -/
def runSign : List Term → Int
  | [] => 1
  | t :: _ => t.1.sign

/-- The runs added up under their signs. -/
def sumOfRuns (ts : List Term) : Int :=
  ((runs ts).map fun run => runSign run * (runValue run).toInt).sum

/-- The products of the runs added up under their signs, without any wrapping. -/
def exactSum (ts : List Term) : Int :=
  ((runs ts).map fun run => runSign run * (run.map fun t => t.2.toInt).prod).sum

/-- What the leftmost division by zero divides: the run before it, as far as it goes. -/
def dividend (ts : List Term) : Int64 :=
  runValue ((runs (ts.takeWhile fun t => t != (.div, 0))).getLastD [])

variable {t : Term} {ts rest : List Term} {ops : List ArithOp} {ns : List Int64}

/-! ## Runs -/

theorem runs_cons (hts : ∀ x ∈ ts, x.1.joins) : runs (t :: ts) = [t :: ts] := by
  refine List.splitBy_of_isChain (List.cons_ne_nil t ts) ?_
  induction ts generalizing t with
  | nil => exact .singleton t
  | cons u ts ih =>
    rw [List.forall_mem_cons] at hts
    exact .cons_cons hts.1 (ih hts.2)

theorem runs_append_cons (hts : ∀ x ∈ ts, x.1.joins) {u : Term} (hu : u.1.joins = false) :
    runs (t :: ts ++ u :: rest) = (t :: ts) :: runs (u :: rest) := by
  have hsplit := List.splitBy_append_cons (r := fun _ x : Term => x.1.joins) (l := t :: ts) rest
    (a := u) fun _ _ => hu
  exact hsplit.trans (congrArg (· ++ runs (u :: rest)) (runs_cons hts))

theorem runs_ne_nil : runs (t :: ts) ≠ [] :=
  List.splitBy_ne_nil.mpr (List.cons_ne_nil t ts)

theorem mem_of_mem_runs {run : List Term} (hrun : run ∈ runs ts) (ht : t ∈ run) : t ∈ ts := by
  rw [← List.flatten_splitBy (fun _ x : Term => x.1.joins) ts]
  exact List.mem_flatten_of_mem hrun ht

theorem runValue_concat (u : Term) :
    runValue (t :: ts ++ [u]) = runStep (runValue (t :: ts)) u := by
  simp [runValue]

theorem sumOfRuns_cons (hts : ∀ x ∈ ts, x.1.joins) :
    sumOfRuns (t :: ts) = t.1.sign * (runValue (t :: ts)).toInt := by
  simp [sumOfRuns, runs_cons hts, runSign]

theorem sumOfRuns_append_cons (hts : ∀ x ∈ ts, x.1.joins) {u : Term} (hu : u.1.joins = false) :
    sumOfRuns (t :: ts ++ u :: rest) =
      t.1.sign * (runValue (t :: ts)).toInt + sumOfRuns (u :: rest) := by
  rw [sumOfRuns, runs_append_cons hts hu]
  rfl

/-! ## The first division by zero -/

theorem ne_div_zero_of_not_joins {u : Term} (hu : u.1.joins = false) : u ≠ (.div, 0) := by
  rintro rfl
  cases hu

theorem takeWhile_append (hts : (.div, 0) ∉ ts) :
    (ts ++ rest).takeWhile (fun t => t != (.div, 0)) =
      ts ++ rest.takeWhile fun t => t != (.div, 0) := by
  refine List.takeWhile_append_of_pos fun u hu => ?_
  exact bne_iff_ne.mpr fun h => hts (h ▸ hu)

theorem dividend_append_div (ht : t.1.joins = false) (hts : ∀ x ∈ ts, x.1.joins)
    (hzero : (.div, 0) ∉ ts) : dividend (t :: ts ++ (.div, 0) :: rest) = runValue (t :: ts) := by
  have hpass : (.div, 0) ∉ t :: ts :=
    List.not_mem_cons_of_ne_of_not_mem (ne_div_zero_of_not_joins ht).symm hzero
  rw [dividend, takeWhile_append hpass]
  simp [runs_cons hts]

theorem dividend_append_cons (ht : t.1.joins = false) (hts : ∀ x ∈ ts, x.1.joins)
    (hzero : (.div, 0) ∉ ts) {u : Term} (hu : u.1.joins = false) :
    dividend (t :: ts ++ u :: rest) = dividend (u :: rest) := by
  have hpass : (.div, 0) ∉ t :: ts :=
    List.not_mem_cons_of_ne_of_not_mem (ne_div_zero_of_not_joins ht).symm hzero
  have hsplit : (u :: rest).takeWhile (fun t => t != (.div, 0)) =
      u :: rest.takeWhile fun t => t != (.div, 0) :=
    List.takeWhile_cons_of_pos (bne_iff_ne.mpr (ne_div_zero_of_not_joins hu))
  rw [dividend, dividend, takeWhile_append hpass, hsplit, runs_append_cons hts hu]
  simp [List.getLastD_eq_getLast?, List.getLast?_cons_of_ne_nil runs_ne_nil]

/-! ## The loop -/

theorem apply_of_joins (part : Int64) {u : Term} (hu : u.1.joins) (hzero : u ≠ (.div, 0)) :
    (Number.int part).apply u.1 (.int u.2) = .ok (.int (runStep part u)) := by
  obtain ⟨op, n⟩ := u
  cases op with
  | add | sub => cases hu
  | mul => simp [Number.apply, runStep, Int64.ofInt_mul]
  | div =>
    have hn : n ≠ 0 := fun h => hzero (h ▸ rfl)
    have hdiv : part / n = Int64.ofInt (part.toInt.tdiv n.toInt) := by
      rw [← Int64.toInt_inj, Int64.toInt_div, Int64.toInt_ofInt]
    simp [Number.apply, runStep, hn, hdiv]

theorem apply_of_not_joins (total part : Int64) {op : ArithOp} (hop : op.joins = false) :
    (Number.int total).apply op (.int part) =
      .ok (.int (Int64.ofInt (total.toInt + op.sign * part.toInt))) := by
  cases op with
  | mul | div => cases hop
  | add => simp [Number.apply, ArithOp.sign, Int64.ofInt_add]
  | sub => simp [Number.apply, ArithOp.sign, ← Int.sub_eq_add_neg, Int64.ofInt_sub]

/-- The terms as the loop has them. -/
def operands (ts : List Term) : List (ArithOp × Number) :=
  ts.map fun t => (t.1, .int t.2)

/-- Inside the loop the composing value is that of a run, which the accumulator does not have
    yet. -/
theorem compose_run (total : Int64) (rest : List Term) (ht : t.1.joins = false)
    (hts : ∀ x ∈ ts, x.1.joins) (hzero : (.div, 0) ∉ ts) :
    compose (.int total) t.1 (.int (runValue (t :: ts))) (operands rest) =
      if (.div, 0) ∈ rest then .error (.divisionByZero (dividend (t :: ts ++ rest)))
      else .ok (.int (Int64.ofInt (total.toInt + sumOfRuns (t :: ts ++ rest)))) := by
  induction rest generalizing total t ts with
  | nil => simp [operands, compose, apply_of_not_joins _ _ ht, sumOfRuns_cons hts]
  | cons u rest ih =>
    by_cases hu : u.1.joins
    · by_cases hdiv : u = (.div, 0)
      -- the first division by zero ends the loop
      · subst hdiv
        rw [if_pos List.mem_cons_self, dividend_append_div ht hts hzero]
        rfl
      -- the run gets longer
      · have hstep : compose (.int total) t.1 (.int (runValue (t :: ts))) (operands (u :: rest)) =
            compose (.int total) t.1 (.int (runValue (t :: ts ++ [u]))) (operands rest) := by
          have happly := apply_of_joins (runValue (t :: ts)) hu hdiv
          rw [runValue_concat]
          obtain ⟨op, n⟩ := u
          cases op with
          | add | sub => cases hu
          | mul | div => simp only [operands, List.map_cons, compose, happly]
        have hts' : ∀ x ∈ ts ++ [u], x.1.joins :=
          List.forall_mem_append.mpr ⟨hts, List.forall_mem_singleton.mpr hu⟩
        have hzero' : (.div, 0) ∉ ts ++ [u] := by
          simp [hzero, Ne.symm hdiv]
        have hmem : (.div, 0) ∈ u :: rest ↔ (.div, 0) ∈ rest := by
          simp [Ne.symm hdiv]
        rw [hstep, List.cons_append, ih total ht hts' hzero']
        simp [hmem]
    -- the run is complete, and `u` begins the next one
    · rw [Bool.not_eq_true] at hu
      have hstep : compose (.int total) t.1 (.int (runValue (t :: ts))) (operands (u :: rest)) =
          compose (.int (Int64.ofInt (total.toInt + t.1.sign * (runValue (t :: ts)).toInt))) u.1
            (.int (runValue [u])) (operands rest) := by
        have happly := apply_of_not_joins total (runValue (t :: ts)) ht
        obtain ⟨op, n⟩ := u
        cases op with
        | mul | div => cases hu
        | add | sub =>
          simp only [operands, List.map_cons, compose, happly]
          rfl
      have hmem : (.div, 0) ∈ u :: rest ↔ (.div, 0) ∈ rest := by
        simp [(ne_div_zero_of_not_joins hu).symm]
      have htotal : Int64.ofInt ((Int64.ofInt
            (total.toInt + t.1.sign * (runValue (t :: ts)).toInt)).toInt + sumOfRuns (u :: rest)) =
          Int64.ofInt (total.toInt + sumOfRuns (t :: ts ++ u :: rest)) := by
        rw [Int64.ofInt_add, Int64.ofInt_toInt, ← Int64.ofInt_add, sumOfRuns_append_cons hts hu,
          Int.add_assoc]
      rw [hstep, ih _ hu (List.forall_mem_nil _) List.not_mem_nil, List.singleton_append, htotal,
        dividend_append_cons ht hts hzero hu]
      simp [hmem]

/-! ## Without division -/

theorem ofInt_sum_congr {runs : List (List Term)} {f g : List Term → Int}
    (h : ∀ run ∈ runs, Int64.ofInt (f run) = Int64.ofInt (g run)) :
    Int64.ofInt (runs.map f).sum = Int64.ofInt (runs.map g).sum := by
  induction runs with
  | nil => rfl
  | cons run runs ih =>
    rw [List.forall_mem_cons] at h
    simp only [List.map_cons, List.sum_cons, Int64.ofInt_add, h.1, ih h.2]

theorem runValue_eq_prod {run : List Term} (hne : run ≠ []) (hrun : ∀ t ∈ run, t.1 ≠ .div) :
    runValue run = Int64.ofInt (run.map fun t => t.2.toInt).prod := by
  induction run using List.reverseRecOn with
  | nil => exact absurd rfl hne
  | append_singleton run u ih =>
    rw [List.forall_mem_append, List.forall_mem_singleton] at hrun
    cases run with
    | nil => simp [runValue]
    | cons t ts =>
      have hstep : runStep (runValue (t :: ts)) u =
          Int64.ofInt ((runValue (t :: ts)).toInt * u.2.toInt) := by
        obtain ⟨op, n⟩ := u
        cases op with
        | div => exact absurd rfl hrun.2
        | add | sub | mul => rfl
      rw [runValue_concat, hstep, Int64.ofInt_mul, Int64.ofInt_toInt,
        ih (List.cons_ne_nil t ts) hrun.1, ← Int64.ofInt_mul, List.map_append, List.prod_append,
        List.map_singleton, List.prod_singleton]

/-- Without a division it makes no difference when the residue is taken. -/
theorem ofInt_sumOfRuns (hts : ∀ t ∈ ts, t.1 ≠ .div) :
    Int64.ofInt (sumOfRuns ts) = Int64.ofInt (exactSum ts) := by
  refine ofInt_sum_congr fun run hrun => ?_
  have hvalue := runValue_eq_prod (List.ne_nil_of_mem_splitBy hrun) fun t ht =>
    hts t (mem_of_mem_runs hrun ht)
  rw [Int64.ofInt_mul, Int64.ofInt_toInt, hvalue, ← Int64.ofInt_mul]

theorem toInt_ofInt_exactSum :
    (Int64.ofInt (exactSum ts)).toInt = (exactSum ts).bmod (2 ^ 64) :=
  Int64.toInt_ofInt

/-! ## Operands -/

theorem toNumbers_of_ints {values : List Value}
    (h : values.map Value.toNumber = ns.map fun n => .ok (.int n)) :
    Value.toNumbers values = .ok (ns.map .int) := by
  induction values generalizing ns with
  | nil =>
    cases ns with
    | nil => rfl
    | cons => cases h
  | cons v values ih =>
    cases ns with
    | nil => cases h
    | cons n ns =>
      rw [List.map_cons, List.map_cons, List.cons.injEq] at h
      simp only [Value.toNumbers, h.1, ih h.2, List.map_cons]

theorem toNumbers_eq_error {before after : List Value} {v : Value} {e : ArithError}
    (hbefore : ∀ x ∈ before, ∃ n, x.toNumber = .ok n) (hv : v.toNumber = .error e) :
    Value.toNumbers (before ++ v :: after) = .error e := by
  induction before with
  | nil => simp only [List.nil_append, Value.toNumbers, hv]
  | cons x before ih =>
    rw [List.forall_mem_cons] at hbefore
    obtain ⟨⟨n, hn⟩, hbefore⟩ := hbefore
    simp only [List.cons_append, Value.toNumbers, hn, ih hbefore]

theorem unify_ints (ns : List Int64) : Number.unify (ns.map .int) = ns.map .int := by
  have hints : (ns.map Number.int).any Number.isFloat = false := by
    simp [Number.isFloat]
  rw [Number.unify, hints]
  rfl

theorem foldNumeric_of_ints (ops : List ArithOp) {values : List Value} {n : Int64}
    (h : values.map Value.toNumber = (n :: ns).map fun n => .ok (.int n)) :
    foldNumeric values ops = if (.div, 0) ∈ ops.zip ns then
      .error (.divisionByZero (dividend (terms ops (n :: ns))))
    else .ok (.int (Int64.ofInt (sumOfRuns (terms ops (n :: ns))))) := by
  have hoperands : ops.zip (ns.map Number.int) = operands (ops.zip ns) := by
    rw [operands, List.zip_map_right]
    rfl
  have hloop := compose_run (t := (.add, n)) 0 (ops.zip ns) rfl
    (List.forall_mem_nil _) List.not_mem_nil
  have hfold : foldNumeric values ops =
      compose (.int 0) .add (.int n) (operands (ops.zip ns)) := by
    simp only [foldNumeric, toNumbers_of_ints h, unify_ints (n :: ns)]
    simp only [List.map_cons, hoperands]
  rw [hfold]
  exact hloop.trans (by simp [terms])

theorem toNumber_eq_error {v : Value} {e : ArithError} (h : v.toNumber = .error e) :
    (∃ text, v = .str text ∧ e = .notNumeric text) ∨
      ∃ items, v = .array items ∧ e = .arrayOperand := by
  cases v with
  | null | bool | int | float => cases h
  | array items =>
    cases h
    exact .inr ⟨items, rfl, rfl⟩
  | str text =>
    rw [Value.toNumber] at h
    split at h
    · cases h
    · cases h
      exact .inl ⟨text, rfl, rfl⟩

end Folding

open Folding

/-- One operand more than operators are folded by precedence. If all operands are integers, the
    result is the residue of the sum of the runs, unless an operand after a `/` is zero: then the
    leftmost such division is reported with its dividend. Without a `/` the result is the residue of
    the exact value. If an operand is no number, the leftmost such operand is reported. -/
theorem foldNumeric_by_precedence (values : List Value) (ops : List ArithOp)
    (hlength : values.length = ops.length + 1) :
    (∀ ns : List Int64, (values.map Value.toNumber = ns.map fun n => .ok (.int n)) →
      foldNumeric values ops =
        (if (.div, 0) ∈ terms ops ns then .error (.divisionByZero (dividend (terms ops ns)))
          else .ok (.int (Int64.ofInt (sumOfRuns (terms ops ns))))) ∧
      (.div ∉ ops → ∃ n, foldNumeric values ops = .ok (.int n) ∧
        n.toInt = (exactSum (terms ops ns)).bmod (2 ^ 64))) ∧
    ∀ before v after e, values = before ++ v :: after →
      (∀ x ∈ before, ∃ n, x.toNumber = .ok n) → v.toNumber = .error e →
      foldNumeric values ops = .error e ∧
        ((∃ text, v = .str text ∧ e = .notNumeric text) ∨
          ∃ items, v = .array items ∧ e = .arrayOperand) := by
  refine ⟨fun ns hns => ?_, ?_⟩
  · cases ns with
    | nil =>
      have hlength' := congrArg List.length hns
      simp [hlength] at hlength'
    | cons n ns =>
      have hmem : (.div, 0) ∈ terms ops (n :: ns) ↔ (.div, 0) ∈ ops.zip ns := by
        simp [terms]
      have hfold := foldNumeric_of_ints ops hns
      refine ⟨by simp only [hfold, hmem], fun hdiv => ?_⟩
      have hnodiv : ∀ t ∈ terms ops (n :: ns), t.1 ≠ .div := by
        rintro t ht hop
        obtain h | h := List.mem_cons.mp (List.of_mem_zip ht).1
        · exact absurd (h.symm.trans hop) nofun
        · exact hdiv (hop ▸ h)
      refine ⟨_, ?_, toInt_ofInt_exactSum⟩
      rw [hfold, if_neg fun h => hdiv (List.of_mem_zip h).1, ofInt_sumOfRuns hnodiv]
  · rintro before v after e rfl hbefore hv
    refine ⟨?_, toNumber_eq_error hv⟩
    rw [foldNumeric, toNumbers_eq_error hbefore hv]

/-- `null - i64::MIN / -1 * "2" + 7 / 2`: the quotient wraps around to the least integer, and twice
    that to zero. With a zero after the second `/` the run `7` is reported as its dividend, and an
    array in front of it is reported before the division. -/
theorem foldNumeric_by_precedence_wrapping :
    foldNumeric [.null, .int Int64.minValue, .int (-1), .str "2", .int 7, .int 2]
        [.sub, .div, .mul, .add, .div] = .ok (.int 3) ∧
      foldNumeric [.null, .int 7, .bool false] [.sub, .div] = .error (.divisionByZero 7) ∧
      foldNumeric [.int 7, .int 0, .array []] [.div, .add] = .error .arrayOperand := by
  have hwraps := ((foldNumeric_by_precedence
      [.null, .int Int64.minValue, .int (-1), .str "2", .int 7, .int 2]
      [.sub, .div, .mul, .add, .div] rfl).1 [0, Int64.minValue, -1, 2, 7, 2] (by decide +kernel)).1
  have htraps := ((foldNumeric_by_precedence [.null, .int 7, .bool false] [.sub, .div] rfl).1
    [0, 7, 0] (by decide +kernel)).1
  have hmismatch := ((foldNumeric_by_precedence [.int 7, .int 0, .array []] [.div, .add] rfl).2
    [.int 7, .int 0] (.array []) [] .arrayOperand rfl (by simp [Value.toNumber]) rfl).1
  refine ⟨hwraps.trans ?_, htraps.trans ?_, hmismatch⟩ <;> decide +kernel

end TierScript
