import TierScript.Proofs.Run.Adequacy

/-!
# A loop over a range or an array is its unrolling

The evaluator goes through the rounds of a `for` statement by a recursion that looks at the context
before each of them. Here the same statement is told without a loop: what it read at its start says
once and for all which rounds there are, and a run is a sequence of machines, one after each round.

* `Round`: what one round can do to a machine.
* `Unrolls`: rounds one after the other, up to the first error or the first machine on which the
  context is terminated.
* `rounds?`: the rounds of a `for` statement, from the values at its start.
* `for_iff_unrolled`: a `for` statement ends exactly as its unrolling does.
-/

namespace TierScript

namespace Eval

open Machine

/-! ## Rounds -/

/-- What one round of a loop can do: the machine before it, the result and the machine after it. -/
abbrev Round := Machine → Except EvalError Unit → Machine → Prop

/-- The round that runs a block. -/
def Round.body (env : Env) (b : Linked Block) : Round := fun m r m' =>
  ∃ fuel, block env fuel b m = some (r, m')

/-- The round that gives a variable a value first. -/
def Round.binding (v : Var) (item : Value) (round : Round) : Round := fun m =>
  round (m.write v item)

/-- The first `k` rounds are run to their ends: `machines i` is the machine before round `i`, whose
    context is not terminated. -/
structure Completes (rounds : List Round) (k : Nat) (machines : Nat → Machine) : Prop where
  le : k ≤ rounds.length
  runs : ∀ i < k, (machines i).ctx.isTerminated = false
  ends : ∀ i (h : i < k), rounds[i] (machines i) (.ok ()) (machines (i + 1))

/-- Rounds one after the other. Either all of them are run, or those before the first one that finds
    the context terminated, or those before the first one that ends with an error, and that one. -/
def Unrolls (rounds : List Round) (m : Machine) (r : Except EvalError Unit) (m' : Machine) : Prop :=
  ∃ k machines, machines 0 = m ∧ Completes rounds k machines ∧
    ((k = rounds.length ∨ (machines k).ctx.isTerminated = true) ∧ r = .ok () ∧ m' = machines k ∨
      ∃ e, ∃ h : k < rounds.length, (machines k).ctx.isTerminated = false ∧ r = .error e ∧
        rounds[k] (machines k) (.error e) m')

theorem Completes.zero (rounds : List Round) (machines : Nat → Machine) :
    Completes rounds 0 machines :=
  ⟨Nat.zero_le _, by simp, by simp⟩

variable {round : Round} {rounds : List Round} {m m₁ m' : Machine} {r : Except EvalError Unit}

/-- Rounds that begin with a given one, and the rounds after it. -/
theorem completes_cons_iff {k : Nat} {machines : Nat → Machine} :
    Completes (round :: rounds) (k + 1) machines ↔
      (machines 0).ctx.isTerminated = false ∧ round (machines 0) (.ok ()) (machines 1) ∧
        Completes rounds k fun i => machines (i + 1) := by
  constructor
  · rintro ⟨hle, hruns, hends⟩
    refine ⟨hruns 0 (Nat.succ_pos k), hends 0 (Nat.succ_pos k), Nat.le_of_succ_le_succ hle, ?_, ?_⟩
    · exact fun i hi => hruns (i + 1) (Nat.succ_lt_succ hi)
    · exact fun i hi => hends (i + 1) (Nat.succ_lt_succ hi)
  · rintro ⟨hrun, hend, hle, hruns, hends⟩
    refine ⟨Nat.succ_le_succ hle, fun i hi => ?_, fun i hi => ?_⟩
    · cases i with
      | zero => exact hrun
      | succ i => exact hruns i (Nat.lt_of_succ_lt_succ hi)
    · cases i with
      | zero => exact hend
      | succ i => exact hends i (Nat.lt_of_succ_lt_succ hi)

/-- No round is run if there is none or the context is terminated. -/
theorem unrolls_iff_of_stop (h : rounds = [] ∨ m.ctx.isTerminated = true) :
    Unrolls rounds m r m' ↔ r = .ok () ∧ m' = m := by
  constructor
  · rintro ⟨k, machines, rfl, hdone, hstop⟩
    have hk : k = 0 := by
      cases k with
      | zero => rfl
      | succ k =>
        have hlt : 0 < rounds.length := Nat.lt_of_lt_of_le (Nat.succ_pos k) hdone.le
        obtain rfl | h := h
        · exact absurd hlt (Nat.lt_irrefl 0)
        · exact absurd h (by simp [hdone.runs 0 (Nat.succ_pos k)])
    subst hk
    obtain ⟨-, hr, hm⟩ | ⟨e, hlt, hrun, -⟩ := hstop
    · exact ⟨hr, hm⟩
    · obtain rfl | h := h
      · exact absurd hlt (Nat.lt_irrefl 0)
      · exact absurd h (by simp [hrun])
  · rintro ⟨rfl, rfl⟩
    refine ⟨0, fun _ => m', rfl, .zero _ _, .inl ⟨?_, rfl, rfl⟩⟩
    obtain rfl | h := h
    · exact .inl rfl
    · exact .inr h

/-- The first round is run if the context is not terminated, and the others after it unless it ends
    with an error. -/
theorem unrolls_cons_iff (h : m.ctx.isTerminated = false) :
    Unrolls (round :: rounds) m r m' ↔
      (∃ e, r = .error e ∧ round m (.error e) m') ∨
        ∃ m₁, round m (.ok ()) m₁ ∧ Unrolls rounds m₁ r m' := by
  constructor
  · rintro ⟨k, machines, rfl, hdone, hstop⟩
    cases k with
    | zero =>
      obtain ⟨hend, -, -⟩ | ⟨e, hlt, -, hr, hround⟩ := hstop
      · simp [h] at hend
      · exact .inl ⟨e, hr, hround⟩
    | succ k =>
      obtain ⟨-, hround, hrest⟩ := completes_cons_iff.mp hdone
      refine .inr ⟨machines 1, hround, k, fun i => machines (i + 1), rfl, hrest, ?_⟩
      simpa using hstop
  · rintro (⟨e, rfl, hround⟩ | ⟨m₁, hround, k, machines, rfl, hdone, hstop⟩)
    · exact ⟨0, fun _ => m, rfl, .zero _ _, .inr ⟨e, Nat.succ_pos _, h, rfl, hround⟩⟩
    · -- The machine before the first round goes in front of the others.
      let all : Nat → Machine := fun i => Nat.casesOn i m machines
      refine ⟨k + 1, all, rfl, completes_cons_iff.mpr ⟨h, hround, hdone⟩, ?_⟩
      simpa [all] using hstop

/-! ## The loops of the evaluator -/

theorem body_iff {env : Env} {b : Linked Block} :
    Round.body env b m r m' ↔ Ends env (.block b) m r m' :=
  ends_iff (j := .block b) |>.symm

variable {env : Env} {body : Linked Block} {count : Nat} {v : Var} {item : Value}
  {items : List Value}

theorem ends_times_of_stop (h : count = 0 ∨ m.ctx.isTerminated = true) :
    Ends env (.times count body) m r m' ↔ r = .ok () ∧ m' = m := by
  constructor
  · intro hends
    cases hends with
    | timesStop => exact ⟨rfl, rfl⟩
    | timesError hrun => simp [hrun] at h
    | timesNext hrun => simp [hrun] at h
  · rintro ⟨rfl, rfl⟩
    exact .timesStop h

theorem ends_times_succ (hrun : m.ctx.isTerminated = false) :
    Ends env (.times (count + 1) body) m r m' ↔
      (∃ e, r = .error e ∧ Ends env (.block body) m (.error e) m') ∨
        ∃ m₁, Ends env (.block body) m (.ok ()) m₁ ∧ Ends env (.times count body) m₁ r m' := by
  constructor
  · intro hends
    cases hends with
    | timesStop h => simp [hrun] at h
    | timesError _ hbody => exact .inl ⟨_, rfl, hbody⟩
    | timesNext _ hbody hrest => exact .inr ⟨_, hbody, hrest⟩
  · rintro (⟨e, rfl, hbody⟩ | ⟨m₁, hbody, hrest⟩)
    · exact .timesError hrun hbody
    · exact .timesNext hrun hbody hrest

theorem ends_forEach_of_stop (h : items = [] ∨ m.ctx.isTerminated = true) :
    Ends env (.forEach v items body) m r m' ↔ r = .ok () ∧ m' = m := by
  constructor
  · intro hends
    cases hends with
    | forEachNil => exact ⟨rfl, rfl⟩
    | forEachStop => exact ⟨rfl, rfl⟩
    | forEachError hrun => simp [hrun] at h
    | forEachNext hrun => simp [hrun] at h
  · rintro ⟨rfl, rfl⟩
    cases items with
    | nil => exact .forEachNil
    | cons item items => exact .forEachStop (h.resolve_left (List.cons_ne_nil _ _))

theorem ends_forEach_cons (hrun : m.ctx.isTerminated = false) :
    Ends env (.forEach v (item :: items) body) m r m' ↔
      (∃ e, r = .error e ∧ Ends env (.block body) (m.write v item) (.error e) m') ∨
        ∃ m₁, Ends env (.block body) (m.write v item) (.ok ()) m₁ ∧
          Ends env (.forEach v items body) m₁ r m' := by
  constructor
  · intro hends
    cases hends with
    | forEachStop h => simp [hrun] at h
    | forEachError _ hbody => exact .inl ⟨_, rfl, hbody⟩
    | forEachNext _ hbody hrest => exact .inr ⟨_, hbody, hrest⟩
  · rintro (⟨e, rfl, hbody⟩ | ⟨m₁, hbody, hrest⟩)
    · exact .forEachError hrun hbody
    · exact .forEachNext hrun hbody hrest

/-- A counted loop runs its body as often as it is told. -/
theorem ends_times_iff :
    Ends env (.times count body) m r m' ↔
      Unrolls (List.replicate count (.body env body)) m r m' := by
  induction count generalizing m with
  | zero => exact (ends_times_of_stop (.inl rfl)).trans (unrolls_iff_of_stop (.inl rfl)).symm
  | succ count ih =>
    by_cases hstop : m.ctx.isTerminated = true
    · exact (ends_times_of_stop (.inr hstop)).trans (unrolls_iff_of_stop (.inr hstop)).symm
    · have hrun := Bool.eq_false_iff.mpr hstop
      simp only [List.replicate_succ, unrolls_cons_iff hrun, ends_times_succ hrun, ih, body_iff]

/-- A loop over items runs its body once for each of them, with the variable set to it. -/
theorem ends_forEach_iff :
    Ends env (.forEach v items body) m r m' ↔
      Unrolls (items.map fun item => (Round.body env body).binding v item) m r m' := by
  induction items generalizing m with
  | nil => exact (ends_forEach_of_stop (.inl rfl)).trans (unrolls_iff_of_stop (.inl rfl)).symm
  | cons item items ih =>
    by_cases hstop : m.ctx.isTerminated = true
    · exact (ends_forEach_of_stop (.inr hstop)).trans (unrolls_iff_of_stop (.inr hstop)).symm
    · have hrun := Bool.eq_false_iff.mpr hstop
      simp only [List.map_cons, unrolls_cons_iff hrun, ends_forEach_cons hrun, ih, Round.binding,
        body_iff]

/-! ## The statement -/

/-- The rounds of a loop whose ends have the values `d` and `s`: between two integers one for each
    of them, both ends included, and otherwise one for each item of an array if the first end is a
    plain variable. Nothing that the body does later plays a part. -/
def rounds? (env : Env) (body : Linked Block) (dest : Term) (d s : Value) : Option (List Round) :=
  match d.toInteger?, s.toInteger? with
  | some first, some last =>
    some (List.replicate (max 0 (last.toInt - first.toInt + 1)).toNat (.body env body))
  | _, _ =>
    match dest.plainVar?, s with
    | some v, .array items => some (items.map fun item => (Round.body env body).binding v item)
    | _, _ => none

example (env : Env) (body : Linked Block) (dest : Term) :
    (rounds? env body dest (.int Int64.minValue) (.int Int64.maxValue)).map List.length =
      some (2 ^ 64) := by
  simp only [rounds?, Value.toInteger?, Option.map_some, List.length_replicate]
  decide

/-- How a `for` statement ends that starts on the machine `m`, told by its rounds. Without any it
    does nothing but leave a warning. -/
def Unrolled (env : Env) (program : ProgramId) (dest src : Term) (body : Block)
    (span : Span) (m : Machine) (r : Except EvalError Unit) (m' : Machine) : Prop :=
  match dest.eval m.lookup, src.eval m.lookup with
  | .error e, _ => r = .error (.arith e) ∧ m' = m
  | .ok _, .error e => r = .error (.arith e) ∧ m' = m
  | .ok d, .ok s =>
    match rounds? env ⟨program, body⟩ dest d s with
    | some rounds =>
      ∃ after, Unrolls rounds (m.modifyCtx Context.enterLoop) r after ∧
        m' = after.modifyCtx Context.exitLoop
    | none => r = .ok () ∧ m' = m.note (.skippedLoop span d.typeName s.typeName)

/-- The loop of a `for` statement is its rounds, or a warning. -/
theorem ends_forLoop_iff {dest : Term} {d s : Value} {span : Span} :
    Ends env (.forLoop dest d s body span) m r m' ↔
      match rounds? env body dest d s with
      | some rounds => Unrolls rounds m r m'
      | none => r = .ok () ∧ m' = m.note (.skippedLoop span d.typeName s.typeName) := by
  fun_cases rounds? env body dest d s with
  | case1 _ first last hs hd =>
    show _ ↔ Unrolls _ m r m'
    have hcount : (max 0 (last.toInt - first.toInt + 1)).toNat = rangeCount first last := by
      unfold rangeCount
      omega
    rw [hcount, ← ends_times_iff]
    constructor
    · intro h
      cases h with
      | forRange hd' hs' h =>
        cases hd.symm.trans hd'
        cases hs.symm.trans hs'
        exact h
      | forArray => cases hs
      | forSkip hno => exact absurd hs (hno _ _ hd)
    · exact .forRange hd hs
  | case2 v items hv hno =>
    show _ ↔ Unrolls _ m r m'
    rw [← ends_forEach_iff]
    constructor
    · intro h
      cases h with
      | forRange _ hs => cases hs
      | forArray hv' h =>
        cases hv.symm.trans hv'
        exact h
      | forSkip _ hskip => exact absurd rfl (hskip _ _ hv)
    · exact .forArray hv
  | case3 _ hno hskip =>
    constructor
    · intro h
      cases h with
      | forRange hd hs => exact absurd hs (hno _ _ hd)
      | forArray hv => exact absurd rfl (hskip _ _ hv)
      | forSkip => exact ⟨rfl, rfl⟩
    · rintro ⟨rfl, rfl⟩
      exact .forSkip hno hskip

/-- Once its ends have their values, a `for` statement runs its loop with a mark of its own. -/
theorem ends_for_of_values {program : ProgramId} {dest src : Term} {body : Block} {span : Span}
    {d s : Value} (hdest : dest.eval m.lookup = .ok d) (hsrc : src.eval m.lookup = .ok s) :
    Ends env (.stmt program (.forLoop dest src body span)) m r m' ↔
      ∃ after, Ends env (.forLoop dest d s ⟨program, body⟩ span)
        (m.modifyCtx Context.enterLoop) r after ∧ m' = after.modifyCtx Context.exitLoop := by
  constructor
  · intro h
    cases h with
    | forDestError hdest' => cases hdest.symm.trans hdest'
    | forSrcError _ hsrc' => cases hsrc.symm.trans hsrc'
    | stmtFor hdest' hsrc' h =>
      cases hdest.symm.trans hdest'
      cases hsrc.symm.trans hsrc'
      exact ⟨_, h, rfl⟩
  · rintro ⟨after, h, rfl⟩
    exact .stmtFor hdest hsrc h

/-- A `for` statement is its unrolling: it ends exactly as its rounds do, one after the other, which
    are known from the values that its ends have at the start. -/
theorem for_iff_unrolled (env : Env) (program : ProgramId) (dest src : Term) (body : Block)
    (span : Span) (m m' : Machine) (r : Except EvalError Unit) :
    (∃ fuel, stmt env fuel program (.forLoop dest src body span) m = some (r, m')) ↔
      Unrolled env program dest src body span m r m' := by
  refine (ends_iff (j := .stmt program (.forLoop dest src body span))).symm.trans ?_
  unfold Unrolled
  split
  next e hdest =>
    constructor
    · intro h
      cases h with
      | forDestError hdest' =>
        cases hdest.symm.trans hdest'
        exact ⟨rfl, rfl⟩
      | forSrcError hdest' => cases hdest.symm.trans hdest'
      | stmtFor hdest' => cases hdest.symm.trans hdest'
    · rintro ⟨rfl, rfl⟩
      exact .forDestError hdest
  next d e hdest hsrc =>
    constructor
    · intro h
      cases h with
      | forDestError hdest' => cases hdest.symm.trans hdest'
      | forSrcError _ hsrc' =>
        cases hsrc.symm.trans hsrc'
        exact ⟨rfl, rfl⟩
      | stmtFor _ hsrc' => cases hsrc.symm.trans hsrc'
    · rintro ⟨rfl, rfl⟩
      exact .forSrcError hdest hsrc
  next d s hdest hsrc =>
    rw [ends_for_of_values hdest hsrc]
    simp only [ends_forLoop_iff]
    split
    · exact Iff.rfl
    · constructor
      · rintro ⟨after, ⟨rfl, rfl⟩, rfl⟩
        exact ⟨rfl, rfl⟩
      · rintro ⟨rfl, rfl⟩
        exact ⟨_, ⟨rfl, rfl⟩, rfl⟩

end Eval

end TierScript
