import Mathlib.Tactic.Choose
import Mathlib.Tactic.Push
import TierScript.Proofs.Run.Underway

/-!
# Parts of a job are recursive calls

`Enters` lists the parts of a job by rules. Here they are shown to be exactly the jobs for which the
evaluator calls itself, so that what is said of all moments of a run is said of the evaluator.

* `enters_iff`: the parts of a job are those that its moves name.
* `isSome_run_succ_iff`: a job is answered with some fuel if and only if each of its parts is
  answered with one unit less. `Reaches.isSome_run`: so is every moment of the run.
* `endless_iff`: a job is never answered if and only if some chain of parts has no end.
* `Ends.by_parts`: what holds of a job that ends as soon as it holds of its parts, holds of all of
  them. `Ends.by_moves` is the same by the moves.
-/

namespace TierScript

namespace Eval

open Machine

variable {env env₁ env' : Env} {j j₁ j' : Job} {m m₁ m' : Machine}

/-! ## The parts that the moves name -/

theorem Enters.of_startStmt {program : ProgramId} {s : Stmt}
    (h : startStmt env program m s = .part env' j' m') :
    Enters env (.stmt program s) m env' j' m' := by
  cases s with
  | block b => cases h; exact .stmtBlock
  | ifElse condition body otherwise span =>
    dsimp only [startStmt] at h
    rcases hc : condition.eval m.lookup with e | _ | _ <;> rw [hc] at h
    · cases h
    · cases otherwise with
      | none => cases h
      | some b => cases h; exact .ifFalse hc
    · cases h; exact .ifTrue hc
  | whileLoop condition body span => cases h; exact .stmtWhile
  | forLoop dest src body span =>
    dsimp only [startStmt] at h
    rcases hd : dest.eval m.lookup with e | d <;> rw [hd] at h
    · cases h
    rcases hs : src.eval m.lookup with e | v <;> rw [hs] at h
    · cases h
    · cases h; exact .stmtFor hd hs
  | call c =>
    dsimp only [startStmt] at h
    rcases hr : m.resolve env program c with ⟨_ | callable, m₁⟩ <;> rw [hr] at h
    · cases h
    · cases h; exact .call hr
  | moduleCall module c =>
    dsimp only [startStmt] at h
    rcases hr : m.resolveModuleCall env program module c with ⟨_ | callable, m₁⟩ <;> rw [hr] at h
    · cases h
    · cases h; exact .moduleCall hr
  | assign | breakLoop | endCode => cases h

theorem Enters.of_startItems {dest : Term} {d s : Value} {body : Linked Block} {span : Span}
    (h : startItems env m dest d s body span = .part env' j' m') :
    Enters env (.forLoop dest d s body span) m env' j' m' := by
  unfold startItems at h
  split at h
  · next hv => cases h; exact .forArray hv
  · cases h

theorem Enters.of_startAction {name : String} {a : Action}
    (h : startAction env name m a = .part env' j' m') :
    Enters env (.action name a) m env' j' m' := by
  unfold startAction at h
  cases ha : a.answer? m with
  | some p => rw [ha] at h; cases h; exact .request ha
  | none =>
    rw [ha] at h
    cases a with
    | run b next => cases h; exact .run
    | runApart b next => cases h; exact .runApart
    | spawn b next => cases h; exact .spawn
    | _ => cases h

/-- What a job starts with is a part of it. -/
theorem Enters.of_start (h : j.start env m = .part env' j' m') : Enters env j m env' j' m' := by
  cases j with
  | block b => cases h; exact .block
  | stmts program l =>
    cases l with
    | nil => cases h
    | cons s rest =>
      rw [Job.start] at h
      split at h
      · cases h
      · next ht => cases h; exact .first (Bool.eq_false_iff.mpr ht)
  | stmt program s => exact .of_startStmt h
  | whileLoop condition body =>
    rw [Job.start] at h
    split at h
    · cases h
    · next ht =>
      rcases hc : condition.eval m.lookup with e | _ | _ <;> rw [hc] at h <;> cases h
      exact .whileBody (Bool.eq_false_iff.mpr ht) hc
  | forLoop dest d s body span =>
    rw [Job.start_forLoop] at h
    split at h
    · next hd hs => cases h; exact .forRange hd hs
    · exact .of_startItems h
  | times count body =>
    rw [Job.start] at h
    split at h
    · cases h
    · next hgo =>
      obtain ⟨hpos, ht⟩ := not_or.mp hgo
      obtain ⟨k, rfl⟩ := Nat.exists_eq_succ_of_ne_zero hpos
      cases h
      exact .timesBody (Bool.eq_false_iff.mpr ht)
  | forEach v items body =>
    cases items with
    | nil => cases h
    | cons item rest =>
      rw [Job.start] at h
      split at h
      · cases h
      · next ht => cases h; exact .forEachBody (Bool.eq_false_iff.mpr ht)
  | invoke callable args =>
    cases callable with
    | script f => cases h; exact .invokeScript
    | native name arity body => cases h; exact .invokeNative
  | script f args =>
    rw [Job.start] at h
    split at h
    · cases h
    · next hdeep =>
      rcases hb : m.enterCall f.node args with ⟨_ | _, m₀⟩ <;> rw [hb] at h <;> cases h
      exact .body (Nat.le_of_not_lt hdeep) hb
  | action name a => exact .of_startAction h

theorem Enters.of_resumeAction {name : String} {a : Action} {r : Except EvalError Unit}
    {m₂ : Machine} (hstart : startAction env name m a = .part env₁ j₁ m₁)
    (he : Ends env₁ j₁ m₁ r m₂)
    (h : (Job.action name a).resume env m (r, m₂) = .part env' j' m') :
    Enters env (.action name a) m env' j' m' := by
  cases a with
  | run b next => cases hstart; cases h; exact .afterRun he
  | runApart b next => cases hstart; cases h; exact .afterRunApart he
  | spawn b next =>
    cases hstart
    cases r with
    | ok => cases h; exact .afterSpawn he
    | error e => cases h; exact .afterFailedSpawn he
  | _ => cases h

/-- What a job goes on with when its first part has ended is a part of it. -/
theorem Enters.of_resume {r : Except EvalError Unit} {m₂ : Machine}
    (hstart : j.start env m = .part env₁ j₁ m₁) (he : Ends env₁ j₁ m₁ r m₂)
    (h : j.resume env m (r, m₂) = .part env' j' m') : Enters env j m env' j' m' := by
  cases j with
  | stmts program l =>
    cases l with
    | nil => cases hstart
    | cons s rest =>
      rw [Job.start] at hstart
      split at hstart
      · cases hstart
      · next ht => cases hstart; cases r <;> cases h; exact .rest (Bool.eq_false_iff.mpr ht) he
  | whileLoop condition body =>
    rw [Job.start] at hstart
    split at hstart
    · cases hstart
    · next ht =>
      rcases hc : condition.eval m.lookup with e | _ | _ <;> rw [hc] at hstart <;> cases hstart
      cases r <;> cases h
      exact .whileNext (Bool.eq_false_iff.mpr ht) hc he
  | times count body =>
    rw [Job.start] at hstart
    split at hstart
    · cases hstart
    · next hgo =>
      obtain ⟨hpos, ht⟩ := not_or.mp hgo
      obtain ⟨k, rfl⟩ := Nat.exists_eq_succ_of_ne_zero hpos
      cases hstart
      cases r <;> cases h
      exact .timesNext (Bool.eq_false_iff.mpr ht) he
  | forEach v items body =>
    cases items with
    | nil => cases hstart
    | cons item rest =>
      rw [Job.start] at hstart
      split at hstart
      · cases hstart
      · next ht =>
        cases hstart
        cases r <;> cases h
        exact .forEachNext (Bool.eq_false_iff.mpr ht) he
  | action name a => exact .of_resumeAction hstart he h
  | stmt program s => cases s <;> cases h
  | script f args => cases r <;> cases h
  | block | forLoop | invoke => cases h

/-- The parts of a job are the job that it starts with, and the one that it goes on with when that
    one has ended. -/
theorem enters_iff :
    Enters env j m env' j' m' ↔
      j.start env m = .part env' j' m' ∨
      ∃ env₁ j₁ m₁ r m₂, j.start env m = .part env₁ j₁ m₁ ∧ Ends env₁ j₁ m₁ r m₂ ∧
        j.resume env m (r, m₂) = .part env' j' m' := by
  constructor
  · intro h
    cases h with
    | block | stmtBlock | stmtWhile | invokeScript | invokeNative | run | runApart | spawn =>
      exact .inl rfl
    | first ht => exact .inl (start_running ht)
    | ifTrue hc | ifFalse hc => exact .inl (start_ifElse hc)
    | stmtFor hd hs => exact .inl (start_forStmt hd hs)
    | call hr | moduleCall hr => exact .inl (congrArg (startCall _ _) hr)
    | whileBody ht hc => exact .inl (start_while ht hc)
    | forRange hd hs => exact .inl (start_range hd hs)
    | forArray hv => exact .inl (start_items hv)
    | timesBody ht => exact .inl (start_times ht)
    | forEachBody ht => exact .inl (start_forEach ht)
    | body hdeep he => exact .inl (start_body hdeep he)
    | request ha => exact .inl (start_request ha)
    -- The parts that come second
    | rest ht he => exact .inr ⟨_, _, _, _, _, start_running ht, he, rfl⟩
    | whileNext ht hc he => exact .inr ⟨_, _, _, _, _, start_while ht hc, he, rfl⟩
    | timesNext ht he => exact .inr ⟨_, _, _, _, _, start_times ht, he, rfl⟩
    | forEachNext ht he => exact .inr ⟨_, _, _, _, _, start_forEach ht, he, rfl⟩
    | afterRun he | afterRunApart he | afterSpawn he | afterFailedSpawn he =>
      exact .inr ⟨_, _, _, _, _, rfl, he, rfl⟩
  · rintro (h | ⟨_, _, _, _, _, hstart, he, h⟩)
    · exact .of_start h
    · exact .of_resume hstart he h

/-- A part of a job whose first part has ended is that one or the next one. -/
theorem Enters.first_or_next {r : Except EvalError Unit} {m₂ : Machine}
    (h : Enters env j m env' j' m') (hstart : j.start env m = .part env₁ j₁ m₁)
    (he : Ends env₁ j₁ m₁ r m₂) :
    (env' = env₁ ∧ j' = j₁ ∧ m' = m₁) ∨ j.resume env m (r, m₂) = .part env' j' m' := by
  obtain h | ⟨_, _, _, _, _, h, he', hnext⟩ := enters_iff.mp h
  · cases hstart.symm.trans h
    exact .inl ⟨rfl, rfl, rfl⟩
  · cases hstart.symm.trans h
    obtain ⟨rfl, rfl⟩ := he.unique he'
    exact .inr hnext

/-! ## The parts that the evaluator runs -/

/-- Only the first part of a job is ever given less. -/
theorem wait_resume {e : Ending} (h : j.resume env m e = .part env' j' m') : j.wait j' = 0 := by
  obtain ⟨_ | _, m₁⟩ := e <;> cases j with
  | stmts program l => cases l <;> cases h <;> rfl
  | stmt program s => cases s <;> cases h
  | whileLoop | times => cases h <;> rfl
  | forEach v items body => cases items <;> cases h <;> rfl
  | action name a => cases a <;> cases h <;> rfl
  | block | forLoop | invoke | script => cases h

/-- The evaluator answers a job if and only if it answers each part of it, with one unit of fuel
    less. -/
theorem isSome_run_succ_iff {n : Nat} :
    (j.run env (n + 1) m).isSome ↔
      ∀ env' j' m', Enters env j m env' j' m' → (j'.run env' (n - j.wait j') m').isSome := by
  rw [run_succ, Job.unfold]
  constructor
  · intro h env' j' m' he
    obtain hstart | ⟨env₁, j₁, m₁, r, m₂, hstart, hends, hresume⟩ := enters_iff.mp he
    · rw [hstart] at h
      obtain ⟨e, hbind⟩ := Option.isSome_iff_exists.mp h
      obtain ⟨e₁, hrun, -⟩ := Option.bind_eq_some_iff.mp hbind
      rw [hrun]
      rfl
    · rw [hstart] at h
      obtain ⟨e, hbind⟩ := Option.isSome_iff_exists.mp h
      obtain ⟨⟨r₁, m₁'⟩, hrun, hnext⟩ := Option.bind_eq_some_iff.mp hbind
      obtain ⟨rfl, rfl⟩ := hends.unique (.of_run hrun)
      rw [hresume] at hnext
      rw [wait_resume hresume, Nat.sub_zero]
      exact Option.isSome_iff_exists.mpr ⟨e, hnext⟩
  · intro h
    cases hstart : j.start env m with
    | stop e => rfl
    | part env₁ j₁ m₁ =>
      obtain ⟨⟨r, m₂⟩, hrun⟩ := Option.isSome_iff_exists.mp (h _ _ _ (.of_start hstart))
      simp only [hrun, Option.bind_some]
      cases hresume : j.resume env m (r, m₂) with
      | stop e => rfl
      | part env₂ j₂ m₃ =>
        have hnext := h _ _ _ (.of_resume hstart (.of_run hrun) hresume)
        rwa [wait_resume hresume, Nat.sub_zero] at hnext

/-- Every moment of a run that is answered is answered too, with no more fuel. -/
theorem Reaches.isSome_run {n : Nat} (h : Reaches env j m env' j' m')
    (hn : (j.run env n m).isSome) : ∃ k ≤ n, (j'.run env' k m').isSome := by
  induction h generalizing n with
  | here => exact ⟨n, Nat.le_refl n, hn⟩
  | part he _ ih =>
    cases n with
    | zero => rw [run_zero] at hn; cases hn
    | succ n =>
      obtain ⟨k, hk, hrun⟩ := ih (isSome_run_succ_iff.mp hn _ _ _ he)
      exact ⟨k, by omega, hrun⟩

section Induction

variable {p : Env → Job → Machine → Except EvalError Unit → Machine → Prop}
  {r : Except EvalError Unit}

/-- What holds of a job that ends as soon as it holds of all its parts, holds of every job that
    ends. -/
@[elab_as_elim]
theorem Ends.by_parts
    (step : ∀ {env j m r m'}, Ends env j m r m' →
      (∀ {env₁ j₁ m₁ r₁ m₂}, Enters env j m env₁ j₁ m₁ → Ends env₁ j₁ m₁ r₁ m₂ →
        p env₁ j₁ m₁ r₁ m₂) → p env j m r m')
    (h : Ends env j m r m') : p env j m r m' := by
  obtain ⟨n, hn⟩ := ends_iff.mp h
  have hsome : (j.run env n m).isSome := by rw [hn]; rfl
  clear hn
  induction n using Nat.strongRecOn generalizing env j m r m' with
  | ind n ih =>
    refine step h fun {env₁ j₁ m₁ r₁ m₂} he h₁ => ?_
    cases n with
    | zero => rw [run_zero] at hsome; cases hsome
    | succ n => exact ih (n - j.wait j₁) (by omega) h₁ (isSome_run_succ_iff.mp hsome _ _ _ he)

/-- The same with the moves of a job in place of its parts: it ends at once, or as its first part
    does, or as its second part does. -/
@[elab_as_elim]
theorem Ends.by_moves
    (stop : ∀ {env j m r m'}, j.start env m = .stop (r, m') → p env j m r m')
    (part : ∀ {env j m env₁ j₁ m₁ r₁ m₂ r m'}, j.start env m = .part env₁ j₁ m₁ →
      Ends env₁ j₁ m₁ r₁ m₂ → j.resume env m (r₁, m₂) = .stop (r, m') →
      p env₁ j₁ m₁ r₁ m₂ → p env j m r m')
    (parts : ∀ {env j m env₁ j₁ m₁ r₁ m₂ env₂ j₂ m₃ r m'}, j.start env m = .part env₁ j₁ m₁ →
      Ends env₁ j₁ m₁ r₁ m₂ → j.resume env m (r₁, m₂) = .part env₂ j₂ m₃ →
      p env₁ j₁ m₁ r₁ m₂ → p env₂ j₂ m₃ r m' → p env j m r m')
    (h : Ends env j m r m') : p env j m r m' := by
  refine Ends.by_parts (fun {env j m r m'} h ih => ?_) h
  have hleads := ends_iff_leads.mp h
  cases hstart : j.start env m with
  | stop e =>
    rw [hstart] at hleads
    obtain rfl : e = (r, m') := hleads
    exact stop hstart
  | part env₁ j₁ m₁ =>
    rw [hstart] at hleads
    obtain ⟨⟨r₁, m₂⟩, h₁, hnext⟩ := hleads
    have hp₁ := ih (.of_start hstart) h₁
    cases hresume : j.resume env m (r₁, m₂) with
    | stop e =>
      rw [hresume] at hnext
      obtain rfl : e = (r, m') := hnext
      exact part hstart h₁ hresume hp₁
    | part env₂ j₂ m₃ =>
      rw [hresume] at hnext
      exact parts hstart h₁ hresume hp₁ (ih (.of_resume hstart h₁ hresume) hnext)

end Induction

/-- A job ends if and only if its parts do. -/
theorem exists_ends_iff :
    (∃ r m', Ends env j m r m') ↔
      ∀ env' j' m', Enters env j m env' j' m' → ∃ r m₁, Ends env' j' m' r m₁ := by
  constructor
  · rintro ⟨r, m', h⟩ env' j' m₁ he
    obtain ⟨n, hn⟩ := ends_iff.mp h
    have hsome : (j.run env n m).isSome := by rw [hn]; rfl
    obtain ⟨k, -, hrun⟩ := Reaches.isSome_run (.part he .here) hsome
    obtain ⟨⟨r₁, m₂⟩, hrun⟩ := Option.isSome_iff_exists.mp hrun
    exact ⟨r₁, m₂, .of_run hrun⟩
  · intro h
    simp only [ends_iff_leads]
    cases hstart : j.start env m with
    | stop e => exact ⟨e.1, e.2, rfl⟩
    | part env₁ j₁ m₁ =>
      obtain ⟨r, m₂, h₁⟩ := h _ _ _ (.of_start hstart)
      cases hresume : j.resume env m (r, m₂) with
      | stop e => exact ⟨e.1, e.2, (r, m₂), h₁, by rw [hresume]; rfl⟩
      | part env₂ j₂ m₃ =>
        obtain ⟨r', m', h₂⟩ := h _ _ _ (.of_resume hstart h₁ hresume)
        exact ⟨r', m', (r, m₂), h₁, by rw [hresume]; exact h₂⟩

/-- No amount of fuel gets the job answered. -/
def Endless (env : Env) (j : Job) (m : Machine) : Prop := ∀ n, j.run env n m = none

theorem endless_iff_not_ends : Endless env j m ↔ ¬ ∃ r m', Ends env j m r m' := by
  constructor
  · rintro h ⟨r, m', hends⟩
    obtain ⟨n, hn⟩ := ends_iff.mp hends
    rw [h n] at hn
    cases hn
  · intro h n
    cases hrun : j.run env n m with
    | none => rfl
    | some e => exact absurd ⟨e.1, e.2, .of_run hrun⟩ h

theorem Endless.part (h : Endless env j m) :
    ∃ env' j' m', Enters env j m env' j' m' ∧ Endless env' j' m' := by
  rw [endless_iff_not_ends, exists_ends_iff] at h
  push Not at h
  obtain ⟨env', j', m', he, hnot⟩ := h
  refine ⟨env', j', m', he, endless_iff_not_ends.mpr ?_⟩
  rintro ⟨r, m₁, hends⟩
  exact hnot r m₁ hends

/-- The evaluator never answers a job if and only if some chain of parts goes on forever. -/
theorem endless_iff :
    Endless env j m ↔ ∃ chain : Nat → Env × Job × Machine, chain 0 = (env, j, m) ∧
      ∀ i, Enters (chain i).1 (chain i).2.1 (chain i).2.2
        (chain (i + 1)).1 (chain (i + 1)).2.1 (chain (i + 1)).2.2 := by
  constructor
  · intro h
    let Stuck := { x : Env × Job × Machine // Endless x.1 x.2.1 x.2.2 }
    have hpart (x : Stuck) : ∃ y : Stuck, Enters x.1.1 x.1.2.1 x.1.2.2 y.1.1 y.1.2.1 y.1.2.2 := by
      obtain ⟨env', j', m', he, hstuck⟩ := x.2.part
      exact ⟨⟨(env', j', m'), hstuck⟩, he⟩
    choose next hnext using hpart
    let link : Nat → Stuck := Nat.rec ⟨(env, j, m), h⟩ fun _ => next
    exact ⟨fun i => (link i).1, rfl, fun i => hnext (link i)⟩
  · rintro ⟨chain, hzero, hchain⟩ n
    have hnone : ∀ i, ¬ ((chain i).2.1.run (chain i).1 n (chain i).2.2).isSome := by
      induction n using Nat.strongRecOn with
      | ind n ih =>
        intro i hsome
        cases n with
        | zero => rw [run_zero] at hsome; cases hsome
        | succ n =>
          exact ih _ (by omega) (i + 1) (isSome_run_succ_iff.mp hsome _ _ _ (hchain i))
    have hfirst := hnone 0
    rw [hzero] at hfirst
    exact Option.not_isSome_iff_eq_none.mp hfirst

end Eval

end TierScript
