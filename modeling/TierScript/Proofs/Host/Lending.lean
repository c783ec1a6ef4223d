import Mathlib.Order.Bounds.Defs
import TierScript.Host.Loans
import TierScript.Proofs.Run.Parts
import TierScript.Proofs.Run.Pooling

/-!
# What a pool keeps

A pool keeps cleared contexts, and no more than its capacity. How many are left after an evaluation
depends on two numbers only: how many there were before, and the largest number of contexts that
were on loan at the same time.

* `Pool.Kept`: all idle contexts are cleared, and there are not too many. `Loan.after`: a host that
  takes, changes and gives back contexts in any order keeps that.
* `OnLoan`: how many contexts are on loan at some moment of a run.
* `Refills`: a pool with `f` idle contexts is left with `min capacity (max f k)` of them. A call
  turns `k` into `k + 1`, and one run after another takes the larger `k`.
* `Ends.refills`: every run that ends refills the pool with the largest number of loans.
* `idle_exact`: the invariant along any loans, and the exact number after any evaluation.
-/

namespace TierScript

/-! ## Pools in order -/

/-- All idle contexts were cleared, and there are at most as many as the capacity says. -/
structure Pool.Kept (p : Pool) : Prop where
  cleared : p.Cleared
  idle_le : p.idle.length ≤ p.capacity

namespace Pool

variable {p : Pool}

@[simp] theorem obtain_capacity (p : Pool) (stores : Stores) (session : SessionId) :
    (p.obtain stores session).2.1.capacity = p.capacity := by
  unfold obtain
  split <;> rfl

@[simp] theorem obtain_idle (p : Pool) (stores : Stores) (session : SessionId) :
    (p.obtain stores session).2.1.idle = p.idle.tail := by
  unfold obtain
  cases hidle : p.idle with
  | nil => exact hidle
  | cons c rest => rfl

@[simp] theorem release_capacity (p : Pool) (c : Context) :
    (p.release c).capacity = p.capacity := by
  unfold release
  split <;> rfl

theorem Kept.obtain (h : p.Kept) (stores : Stores) (session : SessionId) :
    (p.obtain stores session).2.1.Kept where
  cleared c hc := h.cleared c (List.mem_of_mem_tail (by rwa [obtain_idle] at hc))
  idle_le := by
    have hle := h.idle_le
    simp only [obtain_idle, obtain_capacity, List.length_tail]
    omega

theorem Kept.release (h : p.Kept) (c : Context) : (p.release c).Kept := by
  unfold Pool.release
  split
  · next hfree =>
    refine ⟨fun c' hc' => ?_, hfree⟩
    rcases List.mem_cons.mp hc' with rfl | hc'
    · rfl
    · exact h.cleared c' hc'
  · exact h

theorem Kept.empty (capacity : Nat) : Kept { capacity } := ⟨nofun, Nat.zero_le _⟩

end Pool

/-! ## Loans in any order -/

/-- What a host can do that works with a pool directly. -/
inductive Loan where
  | obtain (name : String) (session : SessionId)
  | release (name : String)
  | modify (name : String) (f : Context → Stores → Context × Stores)

namespace Loan

/-- Does it. -/
def step (l : Loans) : Loan → Loans
  | .obtain name session => l.obtain name session
  | .release name => l.release name
  | .modify name f => l.modify name f

/-- The pool and what is on loan, after some steps with a new pool. -/
def after (capacity : Nat) (steps : List Loan) : Loans :=
  steps.foldl step { pool := { capacity } }

theorem step_kept {l : Loans} (h : l.pool.Kept) (s : Loan) :
    (step l s).pool.Kept ∧ (step l s).pool.capacity = l.pool.capacity := by
  cases s with
  | obtain name session =>
    have hpool := h.obtain l.stores session
    simp only [step, Loans.obtain]
    split
    · exact ⟨hpool.release _, by simp⟩
    · exact ⟨hpool, by simp⟩
  | release name =>
    simp only [step, Loans.release]
    split
    · exact ⟨h.release _, by simp⟩
    · exact ⟨h, rfl⟩
  | modify name f =>
    simp only [step, Loans.modify]
    split <;> exact ⟨h, rfl⟩

theorem after_kept (capacity : Nat) (steps : List Loan) :
    (after capacity steps).pool.Kept ∧ (after capacity steps).pool.capacity = capacity := by
  suffices hfrom : ∀ l : Loans, l.pool.Kept →
      (steps.foldl step l).pool.Kept ∧ (steps.foldl step l).pool.capacity = l.pool.capacity from
    hfrom _ (.empty capacity)
  induction steps with
  | nil => exact fun l h => ⟨h, rfl⟩
  | cons s steps ih =>
    intro l h
    obtain ⟨hkept, hcapacity⟩ := step_kept h s
    obtain ⟨hkept', hcapacity'⟩ := ih _ hkept
    exact ⟨hkept', hcapacity'.trans hcapacity⟩

end Loan

/-! ## How many contexts a pool is left with -/

/-- The pool has kept its capacity, and is left with as many idle contexts as it had, or `k` if that
    is more, up to the capacity. -/
structure Refills (k : Nat) (p p' : Pool) : Prop where
  capacity : p'.capacity = p.capacity
  idle : p.idle.length ≤ p.capacity →
    p'.idle.length = min p.capacity (max p.idle.length k)

namespace Refills

variable {k k₁ k₂ : Nat} {p p₁ p₂ p' : Pool}

theorem refl (p : Pool) : Refills 0 p p where
  capacity := rfl
  idle h := by omega

theorem idle_le (h : Refills k p p') (hp : p.idle.length ≤ p.capacity) :
    p'.idle.length ≤ p'.capacity := by
  rw [h.capacity, h.idle hp]
  exact Nat.min_le_left ..

/-- One run after another. -/
theorem trans (h₁ : Refills k₁ p p₁) (h₂ : Refills k₂ p₁ p₂) : Refills (max k₁ k₂) p p₂ where
  capacity := h₂.capacity.trans h₁.capacity
  idle hp := by
    have hidle := h₂.idle (h₁.idle_le hp)
    rw [h₁.capacity, h₁.idle hp] at hidle
    omega

/-- A run on a context that is taken before and given back afterwards. -/
theorem loan {stores : Stores} {session : SessionId} {c : Context}
    (h : Refills k (p.obtain stores session).2.1 p₁) : Refills (k + 1) p (p₁.release c) where
  capacity := by rw [Pool.release_capacity, h.capacity, Pool.obtain_capacity]
  idle hp := by
    have hcapacity := h.capacity
    have hidle := h.idle
    simp only [Pool.obtain_capacity, Pool.obtain_idle, List.length_tail] at hcapacity hidle
    unfold Pool.release
    split
    · simp only [List.length_cons]
      omega
    · omega

end Refills

/-! ## Contexts on loan in a run -/

namespace Eval

open Machine

/-- Whether the job is a call of a script function. -/
def Job.isCall : Job → Bool
  | .script .. => true
  | _ => false

/-- How many contexts a job has on loan while one of its parts runs: one for the body of a call. -/
def lent : Job → Job → Nat
  | .script .., .block _ => 1
  | _, _ => 0

/-- At some moment of the run of the job, that many contexts are on loan that were not before. -/
inductive OnLoan : Env → Job → Machine → Nat → Prop where
  | none {env j m} : OnLoan env j m 0
  /-- The context for a call is taken before its arguments are evaluated. -/
  | taken {env f args m} :
      m.ctx.depth + 1 ≤ env.config.maxCallDepth → OnLoan env (.script f args) m 1
  | part {env j m env₁ j₁ m₁ n} :
      Enters env j m env₁ j₁ m₁ → OnLoan env₁ j₁ m₁ n → OnLoan env j m (n + lent j j₁)

/-- The largest number of contexts on loan in the run of the job. -/
def Peak (env : Env) (j : Job) (m : Machine) (k : Nat) : Prop :=
  IsGreatest { n | OnLoan env j m n } k

/-- A run from the first machine to the second one refills the pool with its largest number of
    loans. -/
def Spends (env : Env) (j : Job) (m m' : Machine) : Prop :=
  ∃ k, Peak env j m k ∧ Refills k m.world.pool m'.world.pool

variable {env env₁ env₂ : Env} {j j₁ j₂ : Job} {m m₀ m₁ m₂ m' m₁' : Machine}
  {r₁ : Except EvalError Unit} {e : Ending}

theorem lent_eq_zero (hj : j.isCall = false) (j₁ : Job) : lent j j₁ = 0 := by
  cases j with
  | script => cases hj
  | _ => rfl

theorem OnLoan.of_part {n : Nat} (hj : j.isCall = false) (he : Enters env j m env₁ j₁ m₁)
    (h : OnLoan env₁ j₁ m₁ n) : OnLoan env j m n := by
  have hpart := h.part he
  rwa [lent_eq_zero hj] at hpart

/-- What is on loan in a job that is not a call is on loan in one of its parts. -/
theorem OnLoan.cases_part {n : Nat} (h : OnLoan env j m n) (hj : j.isCall = false) :
    n = 0 ∨ ∃ env₁ j₁ m₁, Enters env j m env₁ j₁ m₁ ∧ OnLoan env₁ j₁ m₁ n := by
  cases h with
  | none => exact .inl rfl
  | taken => cases hj
  | part he hn =>
    rw [lent_eq_zero hj]
    exact .inr ⟨_, _, _, he, hn⟩

/-- A job that ends at once and is not a call takes nothing. -/
theorem Spends.stop (hstart : j.start env m = .stop e) (hj : j.isCall = false)
    (hpool : m'.world.pool = m.world.pool) : Spends env j m m' := by
  refine ⟨0, ⟨.none, fun n hn => ?_⟩, ?_⟩
  · obtain rfl | ⟨env₁, j₁, m₁, he, -⟩ := hn.cases_part hj
    · exact Nat.le_refl 0
    · obtain h | ⟨_, _, _, _, _, h, -⟩ := enters_iff.mp he <;> cases hstart.symm.trans h
  · rw [hpool]
    exact .refl _

/-- A job with one part. -/
theorem Spends.part (hstart : j.start env m = .part env₁ j₁ m₁) (h : Spends env₁ j₁ m₁ m₁')
    (he : Ends env₁ j₁ m₁ r₁ m₁') (hend : j.resume env m (r₁, m₁') = .stop e)
    (hj : j.isCall = false) (hbefore : m₁.world.pool = m.world.pool)
    (hafter : m'.world.pool = m₁'.world.pool) : Spends env j m m' := by
  obtain ⟨k, ⟨hloan, hle⟩, hrefills⟩ := h
  refine ⟨k, ⟨hloan.of_part hj (.of_start hstart), fun n hn => ?_⟩, ?_⟩
  · obtain rfl | ⟨_, _, _, hpart, hn⟩ := hn.cases_part hj
    · exact Nat.zero_le _
    · obtain ⟨rfl, rfl, rfl⟩ | h := hpart.first_or_next hstart he
      · exact hle hn
      · cases hend.symm.trans h
  · rw [← hbefore, hafter]
    exact hrefills

/-- A job with two parts, one after the other. -/
theorem Spends.parts (hstart : j.start env m = .part env₁ j₁ m₁) (h₁ : Spends env₁ j₁ m₁ m₁')
    (he : Ends env₁ j₁ m₁ r₁ m₁') (hnext : j.resume env m (r₁, m₁') = .part env₂ j₂ m₂)
    (h₂ : Spends env₂ j₂ m₂ m') (hj : j.isCall = false)
    (hbefore : m₁.world.pool = m.world.pool) (hbetween : m₂.world.pool = m₁'.world.pool) :
    Spends env j m m' := by
  obtain ⟨k₁, ⟨hloan₁, hle₁⟩, hrefills₁⟩ := h₁
  obtain ⟨k₂, ⟨hloan₂, hle₂⟩, hrefills₂⟩ := h₂
  refine ⟨max k₁ k₂, ⟨?_, fun n hn => ?_⟩, ?_⟩
  · rcases Nat.le_total k₁ k₂ with hle | hle
    · rw [Nat.max_eq_right hle]
      exact hloan₂.of_part hj (.of_resume hstart he hnext)
    · rw [Nat.max_eq_left hle]
      exact hloan₁.of_part hj (.of_start hstart)
  · obtain rfl | ⟨_, _, _, hpart, hn⟩ := hn.cases_part hj
    · exact Nat.zero_le _
    · obtain ⟨rfl, rfl, rfl⟩ | h := hpart.first_or_next hstart he
      · exact Nat.le_trans (hle₁ hn) (Nat.le_max_left ..)
      · cases hnext.symm.trans h
        exact Nat.le_trans (hle₂ hn) (Nat.le_max_right ..)
  · rw [hbetween] at hrefills₂
    rw [← hbefore]
    exact hrefills₁.trans hrefills₂

theorem enterCall_pool {f : FnDef} {args : List Expr} {r : Except ArithError Unit}
    (he : m.enterCall f args = (r, m₀)) :
    m₀.world.pool = (m.world.pool.obtain m.world.stores m.ctx.session).2.1 := by
  cases he
  rfl

/-- A call holds one context more than its body. -/
theorem Spends.call {f : Linked FnDef} {args : List Expr}
    (hdeep : m.ctx.depth + 1 ≤ env.config.maxCallDepth)
    (he : m.enterCall f.node args = (.ok (), m₀))
    (h : Spends (env.hold (.ofFunction f)) (.block ⟨f.program, f.node.body⟩) m₀ m₁)
    (hafter : m'.world.pool = m₁.world.pool.release m₁.ctx) :
    Spends env (.script f args) m m' := by
  obtain ⟨k, ⟨hloan, hle⟩, hrefills⟩ := h
  refine ⟨k + 1, ⟨hloan.part (.body hdeep he), fun n hn => ?_⟩, ?_⟩
  · cases hn with
    | none => exact Nat.zero_le _
    | taken => exact Nat.le_add_left ..
    | part he' hpart =>
      cases he' with
      | body _ he' =>
        cases he.symm.trans he'
        exact Nat.succ_le_succ (hle hpart)
  · rw [enterCall_pool he] at hrefills
    rw [hafter]
    exact hrefills.loan

/-- A call whose arguments fail holds one context until then. -/
theorem Spends.badCall {f : Linked FnDef} {args : List Expr} {e : ArithError}
    (hdeep : m.ctx.depth + 1 ≤ env.config.maxCallDepth)
    (he : m.enterCall f.node args = (.error e, m₀)) :
    Spends env (.script f args) m (m₀.abandonCall m.ctx) := by
  refine ⟨1, ⟨.taken hdeep, fun n hn => ?_⟩, ?_⟩
  · cases hn with
    | none => exact Nat.zero_le _
    | taken => exact Nat.le_refl _
    | part he' =>
      cases he' with
      | body _ he' => cases he.symm.trans he'
  · have htaken : Refills 0 (m.world.pool.obtain m.world.stores m.ctx.session).2.1
        m₀.world.pool := by
      rw [enterCall_pool he]
      exact .refl _
    exact htaken.loan

/-- A call that is refused takes nothing. -/
theorem Spends.refused {f : Linked FnDef} {args : List Expr}
    (hdeep : env.config.maxCallDepth < m.ctx.depth + 1) : Spends env (.script f args) m m := by
  refine ⟨0, ⟨.none, fun n hn => ?_⟩, .refl _⟩
  cases hn with
  | none => exact Nat.le_refl 0
  | taken hfree => omega
  | part he =>
    cases he with
    | body hfree => omega

/-! ## What the moves of a run do to the pool -/

theorem assign_pool {target : Var} {value : Expr} {r : Except EvalError Unit}
    (h : m.assign target value = (r, m')) : m'.world.pool = m.world.pool := by
  unfold assign at h
  split at h <;> cases h <;> rfl

theorem answer_pool {a a₁ : Action} (h : a.answer? m = some (a₁, m')) :
    m'.world.pool = m.world.pool := by
  cases a with
  | done | fail | run | runApart | spawn => cases h
  | _ => cases h; rfl

theorem copyBack_pool (f : FnDef) (args : List Expr) (callee : Context) (outs : List Nat)
    (m : Machine) : (copyBack f args callee m outs).world.pool = m.world.pool := by
  induction outs generalizing m with
  | nil => rfl
  | cons position rest ih =>
    rw [copyBack]
    split
    · exact ih _
    · exact ih m

/-- The machine to which a move leads. -/
def Move.machine : Move → Machine
  | .stop e => e.2
  | .part _ _ m => m

theorem startCall_pool {c : Call} {x : Except EvalError Callable × Machine} :
    (startCall env c x).machine = x.2 := by
  obtain ⟨_ | _, _⟩ := x <;> rfl

theorem startStmt_pool (program : ProgramId) (s : Stmt) :
    (startStmt env program m s).machine.world.pool = m.world.pool := by
  cases s with
  | block | whileLoop | endCode => rfl
  | assign => exact assign_pool rfl
  | ifElse condition body otherwise span =>
    dsimp only [startStmt]
    rcases condition.eval m.lookup with _ | _ | _
    · rfl
    · cases otherwise <;> rfl
    · rfl
  | forLoop dest src body span =>
    dsimp only [startStmt]
    rcases dest.eval m.lookup with _ | _
    · rfl
    · rcases src.eval m.lookup with _ | _ <;> rfl
  | breakLoop span =>
    exact congrArg World.pool (breakOut_world rfl)
  | call c =>
    rw [startStmt, startCall_pool]
    exact (resolve_recalls rfl).pool
  | moduleCall module c =>
    rw [startStmt, startCall_pool]
    exact (resolveModuleCall_recalls rfl).pool

theorem startAction_pool (name : String) (a : Action) :
    (startAction env name m a).machine.world.pool = m.world.pool := by
  unfold startAction
  split
  · next ha => exact answer_pool ha
  · cases a <;> rfl

/-- Only a call takes a context from the pool. -/
theorem start_pool (env : Env) (m : Machine) (hj : j.isCall = false) :
    (j.start env m).machine.world.pool = m.world.pool := by
  cases j with
  | block => rfl
  | stmts program l =>
    cases l with
    | nil => rfl
    | cons s rest => rw [Job.start]; split <;> rfl
  | stmt program s => exact startStmt_pool program s
  | whileLoop condition body =>
    rw [Job.start]
    split
    · rfl
    · rcases condition.eval m.lookup with _ | _ | _ <;> rfl
  | forLoop dest d s body span =>
    rw [Job.start_forLoop]
    split
    · rfl
    · unfold startItems
      split <;> rfl
  | times => rw [Job.start]; split <;> rfl
  | forEach v items body =>
    cases items with
    | nil => rfl
    | cons item rest => rw [Job.start]; split <;> rfl
  | invoke callable => cases callable <;> rfl
  | script => cases hj
  | action name a => exact startAction_pool name a

/-- Only a call gives a context back. -/
theorem resume_pool (env : Env) (m : Machine) (hj : j.isCall = false) (e : Ending) :
    (j.resume env m e).machine.world.pool = e.2.world.pool := by
  obtain ⟨_ | _, m'⟩ := e <;> cases j with
  | script => cases hj
  | stmts program l => cases l <;> rfl
  | stmt program s => cases s <;> rfl
  | forEach v items => cases items <;> rfl
  | action name a => cases a <;> rfl
  | block | whileLoop | forLoop | times | invoke => rfl

/-! ## Whole runs -/

theorem Job.call_or_not (j : Job) : (∃ f args, j = .script f args) ∨ j.isCall = false := by
  cases j with
  | script f args => exact .inl ⟨f, args, rfl⟩
  | _ => exact .inr rfl

/-- A call without a body to run. -/
theorem Spends.bodiless {f : Linked FnDef} {args : List Expr}
    (hstart : (Job.script f args).start env m = .stop (r₁, m')) :
    Spends env (.script f args) m m' := by
  rw [Job.start] at hstart
  split at hstart
  · next hdeep => cases hstart; exact .refused hdeep
  · next hdeep =>
    rcases he : m.enterCall f.node args with ⟨_ | _, m₀⟩ <;> rw [he] at hstart <;> cases hstart
    exact .badCall (Nat.le_of_not_lt hdeep) he

/-- A call whose body has run. -/
theorem Spends.body {f : Linked FnDef} {args : List Expr} {r : Except EvalError Unit}
    (hstart : (Job.script f args).start env m = .part env₁ j₁ m₁) (h : Spends env₁ j₁ m₁ m₁')
    (hend : (Job.script f args).resume env m (r₁, m₁') = .stop (r, m')) :
    Spends env (.script f args) m m' := by
  cases Enters.of_start hstart with
  | body hdeep he =>
    cases r₁ with
    | error e => cases hend; exact h.call hdeep he rfl
    | ok =>
      cases hend
      have hback := copyBack_pool f.node args m₁'.ctx f.node.outs ⟨m.ctx, m₁'.world⟩
      exact h.call hdeep he (congrArg (Pool.release · m₁'.ctx) hback)

/-- A run that ends refills the pool with its largest number of loans. -/
theorem Ends.spends {r : Except EvalError Unit} (h : Ends env j m r m') : Spends env j m m' := by
  refine Ends.by_moves ?stop ?part ?parts h
  case stop =>
    intro env j m r m' hstart
    obtain ⟨f, args, rfl⟩ | hj := j.call_or_not
    · exact .bodiless hstart
    · have hpool := start_pool env m hj
      rw [hstart] at hpool
      exact .stop hstart hj hpool
  case part =>
    intro env j m env₁ j₁ m₁ r₁ m₂ r m' hstart h₁ hend ih
    obtain ⟨f, args, rfl⟩ | hj := j.call_or_not
    · exact ih.body hstart hend
    · have hbefore := start_pool env m hj
      have hafter := resume_pool env m hj (r₁, m₂)
      rw [hstart] at hbefore
      rw [hend] at hafter
      exact .part hstart ih h₁ hend hj hbefore hafter
  case parts =>
    intro env j m env₁ j₁ m₁ r₁ m₂ env₂ j₂ m₃ r m' hstart h₁ hnext ih₁ ih₂
    obtain ⟨f, args, rfl⟩ | hj := j.call_or_not
    · cases r₁ <;> cases hnext
    · have hbefore := start_pool env m hj
      have hbetween := resume_pool env m hj (r₁, m₂)
      rw [hstart] at hbefore
      rw [hnext] at hbetween
      exact .parts hstart ih₁ h₁ hnext ih₂ hj hbefore hbetween

/-- A program on a context from the pool holds one context more than its run. -/
theorem pooled_spends {fuel : Nat} {session : SessionId} {p : Linked Block} {w w' : World}
    {r : Except EvalError Unit} (h : pooled env fuel session p w = some (r, w')) :
    ∃ k, Peak env (.block p) (begun p ⟨(w.obtain session).1, (w.obtain session).2⟩) k ∧
      Refills (k + 1) w.pool w'.pool := by
  obtain ⟨m, hends, rfl⟩ := ends_of_pooled h
  obtain ⟨k, hpeak, hrefills⟩ := hends.spends
  exact ⟨k, hpeak, hrefills.loan⟩

theorem cleared_pooled {fuel : Nat} {session : SessionId} {p : Linked Block} {w w' : World}
    {r : Except EvalError Unit} (h : pooled env fuel session p w = some (r, w'))
    (hw : w.pool.Cleared) : w'.pool.Cleared := by
  have hkeeps := upkeep_cleared env.registry
  obtain ⟨m, hends, rfl⟩ := ends_of_pooled h
  have htaken := hkeeps.obtain w session hw
  exact hkeeps.release _ _ (hends.upkeep hkeeps (hkeeps.note _ _ htaken))

end Eval

/-! ## Exactly so many -/

open Eval

/-- What is idle in a pool was cleared. -/
theorem Pool.Cleared.fields {p : Pool} (h : p.Cleared) {c : Context} (hc : c ∈ p.idle) :
    c.locals = {} ∧ c.loops = [] ∧ c.lexical = [] ∧ c.offers = [] ∧ c.earlyExit = false ∧
      c.depth = 0 := by
  rw [← h c hc]
  exact ⟨rfl, rfl, rfl, rfl, rfl, rfl⟩

/-- In whatever order contexts are taken from a new pool, changed and given back, the idle ones are
    empty and there are at most as many as the capacity says. With such a pool, every run that ends,
    also with an error, leaves `min capacity (max f k)` idle contexts, where `f` were idle before
    and `k` is the largest number on loan at the same time. A program on a context from the pool has
    that one on loan too. -/
theorem idle_exact :
    (∀ capacity steps, (Loan.after capacity steps).pool.idle.length ≤ capacity ∧
      ∀ c ∈ (Loan.after capacity steps).pool.idle,
        c.locals = {} ∧ c.loops = [] ∧ c.lexical = [] ∧ c.offers = [] ∧ c.earlyExit = false ∧
          c.depth = 0) ∧
    (∀ env fuel (j : Job) m r m', m.world.pool.Kept → j.run env fuel m = some (r, m') →
      m'.world.pool.Kept ∧ m'.world.pool.capacity = m.world.pool.capacity ∧
      ∃ k, Peak env j m k ∧
        m'.world.pool.idle.length = min m.world.pool.capacity (max m.world.pool.idle.length k)) ∧
    (∀ env fuel session p (w : World) r w', w.pool.Kept →
      pooled env fuel session p w = some (r, w') →
      w'.pool.Kept ∧ w'.pool.capacity = w.pool.capacity ∧
      ∃ k, Peak env (.block p) (begun p ⟨(w.obtain session).1, (w.obtain session).2⟩) k ∧
        w'.pool.idle.length = min w.pool.capacity (max w.pool.idle.length (k + 1))) := by
  refine ⟨fun capacity steps => ?_, fun env fuel j m r m' hm hrun => ?_,
    fun env fuel session p w r w' hw hrun => ?_⟩
  · obtain ⟨hkept, hcapacity⟩ := Loan.after_kept capacity steps
    exact ⟨Nat.le_trans hkept.idle_le (Nat.le_of_eq hcapacity), fun c hc => hkept.cleared.fields hc⟩
  · have hends := Ends.of_run hrun
    obtain ⟨k, hpeak, hrefills⟩ := hends.spends
    have hcleared := hends.upkeep (upkeep_cleared _) hm.cleared
    exact ⟨⟨hcleared, hrefills.idle_le hm.idle_le⟩, hrefills.capacity, k, hpeak,
      hrefills.idle hm.idle_le⟩
  · obtain ⟨k, hpeak, hrefills⟩ := pooled_spends hrun
    have hcleared := cleared_pooled hrun hw.cleared
    exact ⟨⟨hcleared, hrefills.idle_le hw.idle_le⟩, hrefills.capacity, k, hpeak,
      hrefills.idle hw.idle_le⟩

/-- A program with two functions, one of which has and calls the other one. -/
def callsInCalls : Linked Block :=
  let call (name : String) : Stmt := .call ⟨name, [], .first⟩
  let inner : FnDef := ⟨"inner", [], [], default, .first⟩
  let outer : FnDef := ⟨"outer", [], [], ⟨[call "inner", call "inner"], [inner], .first⟩, .first⟩
  ⟨1, ⟨[call "outer", call "inner", call "outer"], [outer, inner], .first⟩⟩

/-- From an empty pool with room for four contexts, seven calls leave three: at most two calls are
    under way at the same time, and the program has a context of its own. -/
theorem idle_exact_calls :
    let w : World := { pool := { capacity := 4 } }
    ∃ w', pooled default 30 1 callsInCalls w = some (.ok (), w') ∧ w'.pool.idle.length = 3 ∧
      Peak default (.block callsInCalls)
        (begun callsInCalls ⟨(w.obtain 1).1, (w.obtain 1).2⟩) 2 := by
  intro w
  have htest : (pooled default 30 1 callsInCalls w).any
      (fun e => e.1.isOk && e.2.pool.idle.length == 3) = true := by
    decide +kernel
  obtain ⟨⟨⟨e⟩ | ⟨⟩, w'⟩, hw', hthree⟩ := (Option.any_eq_true _ _).mp htest
  · cases hthree
  replace hthree : w'.pool.idle.length = 3 := eq_of_beq (Bool.and_eq_true_iff.mp hthree).2
  obtain ⟨-, -, k, hpeak, hidle⟩ := idle_exact.2.2 _ _ _ _ w _ _ (.empty 4) hw'
  obtain rfl : k = 2 := by
    rw [hthree] at hidle
    simp [w] at hidle
    omega
  exact ⟨w', hw', hthree, hpeak⟩

end TierScript
