import TierScript.Proofs.Program.Scopes
import TierScript.Proofs.Run.Underway

/-!
# Two runs side by side

Runs of one job in two settings take the same course if what the job sees of them is the same. What
has to agree is stated once here, for any two settings, and the evaluator is gone through once.

* `Sides`: the runs on the two sides, and which environments, programs, host functions and machines
  of the two correspond. `Sides.Abreast` is a pair of runs that correspond.
* `Sides.Agree`: what a run reads is the same on both sides, and what it does to one machine and to
  the other leaves machines that correspond.
* `Sides.Agree.meet`: then the two runs have no answer, or they have the same one, with whatever
  fuel, and leave machines that correspond.
-/

namespace TierScript

namespace Eval

open Machine

/-! ## Tasks -/

/-- The machine of a host function after its task has ended. -/
def afterTask (m : Machine) (r : Except EvalError Unit) (apart : Machine) : Machine :=
  match r with
  | .ok () => { m with world := apart.world }
  | .error e => { m with world := apart.world.note (.taskFailed e.message) }

/-- A task is a run of its block with one unit of fuel less. -/
theorem task_eq (env : Env) (n : Nat) (b : Linked Block) (m : Machine) :
    task env n b m =
      (block (env.hold (.ofBlock b)) (n - 1) b (taskMachine m)).map
        fun e => afterTask m e.1 e.2 := by
  cases n with
  | zero => rw [task, block]; rfl
  | succ k =>
    rw [task.eq_def, Nat.add_sub_cancel]
    dsimp only [Machine.note, taskMachine]
    rcases block (env.hold (.ofBlock b)) k b _ with _ | ⟨_ | _, apart⟩ <;> rfl

theorem Enters.afterTask {env : Env} {name : String} {b : Linked Block} {next : Action}
    {m apart : Machine} {r : Except EvalError Unit}
    (h : Ends (env.hold (.ofBlock b)) (.block b) (taskMachine m) r apart) :
    Enters env (.action name (.spawn b next)) m
      env (.action name next) (Eval.afterTask m r apart) := by
  cases r with
  | ok => exact .afterSpawn h
  | error e => exact .afterFailedSpawn h

theorem invoke_native (env : Env) (n : Nat) (name : String) (arity : Arity)
    (body : List Expr → Action) (args : List Expr) (m : Machine) :
    invoke env (n + 1) (.native name arity body) args m =
      Job.run env n (.action name (body args)) m := by
  rw [invoke, Job.run]
  rcases action env n (body args) m with _ | ⟨cause | _, m₁⟩ <;> rfl

section Requests

variable (env : Env) (n : Nat) (name : String) (b : Linked Block) (m : Machine)

theorem run_succ_run (next : Except EvalError Unit → Action) :
    Job.run env (n + 1) (.action name (.run b next)) m =
      match block (env.hold (.ofBlock b)) n b m with
      | none => none
      | some (r, m) => Job.run env n (.action name (next r)) m := by
  rw [Job.run, action]
  rcases block (env.hold (.ofBlock b)) n b m with _ | ⟨r, m₁⟩ <;> rfl

theorem run_succ_runApart (next : Except EvalError Unit → Action) :
    Job.run env (n + 1) (.action name (.runApart b next)) m =
      match block (env.hold (.ofBlock b)) n b ⟨m.ctx.derive, m.world⟩ with
      | none => none
      | some (r, apart) => Job.run env n (.action name (next r)) ⟨m.ctx, apart.world⟩ := by
  rw [Job.run, action]
  rcases block (env.hold (.ofBlock b)) n b ⟨m.ctx.derive, m.world⟩ with _ | ⟨r, apart⟩ <;> rfl

theorem run_succ_spawn (next : Action) :
    Job.run env (n + 1) (.action name (.spawn b next)) m =
      match block (env.hold (.ofBlock b)) (n - 1) b (taskMachine m) with
      | none => none
      | some (r, apart) => Job.run env n (.action name next) (afterTask m r apart) := by
  rw [Job.run, action, task_eq]
  rcases block (env.hold (.ofBlock b)) (n - 1) b (taskMachine m) with _ | ⟨r, apart⟩ <;> rfl

end Requests

/-! ## The two sides -/

/-- What two runs are compared by. -/
structure Sides where
  /-- The runs on the left. -/
  left : Env → Job → Machine → Prop
  /-- The runs on the right. -/
  right : Env → Job → Machine → Prop
  /-- Environments that correspond. -/
  env : Env → Env → Prop
  /-- Numbers of programs that correspond. -/
  program : ProgramId → ProgramId → Prop
  /-- Host functions that correspond. -/
  action : Action → Action → Prop
  /-- Machines that correspond. -/
  machine : Machine → Machine → Prop

/-- The variables that a job itself reads, its parts apart. -/
def Job.reads : Job → List Var
  | .stmt _ (.assign _ value _) => value.reads
  | .stmt _ (.ifElse condition ..) | .whileLoop condition _ => condition.reads
  | .stmt _ (.forLoop dest src ..) => dest.reads ++ src.reads
  | .script _ args => args.flatMap Expr.reads
  | _ => []

namespace Sides

variable (σ : Sides)

/-- Callables that correspond. -/
inductive Callables : Callable → Callable → Prop where
  | native {name arity body} : (∀ args, σ.action (body args) (body args)) →
      Callables (.native name arity body) (.native name arity body)
  | script {p p' f} : σ.program p p' → Callables (.script ⟨p, f⟩) (.script ⟨p', f⟩)

/-- Jobs that correspond. -/
inductive Jobs : Job → Job → Prop where
  | block {p p' b} : σ.program p p' → Jobs (.block ⟨p, b⟩) (.block ⟨p', b⟩)
  | stmts {p p' l} : σ.program p p' → Jobs (.stmts p l) (.stmts p' l)
  | stmt {p p' s} : σ.program p p' → Jobs (.stmt p s) (.stmt p' s)
  | whileLoop {condition p p' b} : σ.program p p' →
      Jobs (.whileLoop condition ⟨p, b⟩) (.whileLoop condition ⟨p', b⟩)
  | forLoop {dest d s p p' b span} : σ.program p p' →
      Jobs (.forLoop dest d s ⟨p, b⟩ span) (.forLoop dest d s ⟨p', b⟩ span)
  | times {count p p' b} : σ.program p p' → Jobs (.times count ⟨p, b⟩) (.times count ⟨p', b⟩)
  | forEach {v items p p' b} : σ.program p p' →
      Jobs (.forEach v items ⟨p, b⟩) (.forEach v items ⟨p', b⟩)
  | invoke {c c' args} : σ.Callables c c' → Jobs (.invoke c args) (.invoke c' args)
  | script {p p' f args} : σ.program p p' → Jobs (.script ⟨p, f⟩ args) (.script ⟨p', f⟩ args)
  | action {name a a'} : σ.action a a' → Jobs (.action name a) (.action name a')

/-- Host functions that correspond and wait for a block, or have ended. -/
inductive Waiting : Action → Action → Prop where
  | done : Waiting .done .done
  | fail {cause} : Waiting (.fail cause) (.fail cause)
  | run {p p' b next next'} : σ.program p p' → (∀ r, σ.action (next r) (next' r)) →
      Waiting (.run ⟨p, b⟩ next) (.run ⟨p', b⟩ next')
  | runApart {p p' b next next'} : σ.program p p' → (∀ r, σ.action (next r) (next' r)) →
      Waiting (.runApart ⟨p, b⟩ next) (.runApart ⟨p', b⟩ next')
  | spawn {p p' b next next'} : σ.program p p' → σ.action next next' →
      Waiting (.spawn ⟨p, b⟩ next) (.spawn ⟨p', b⟩ next')

/-- What a call is resolved to on the two sides. -/
inductive Resolved : Except EvalError Callable × Machine → Except EvalError Callable × Machine →
    Prop where
  | error {e m m'} : σ.machine m m' → Resolved (.error e, m) (.error e, m')
  | ok {c c' m m'} : σ.Callables c c' → σ.machine m m' → Resolved (.ok c, m) (.ok c', m')

/-- Answers with the same result that leave machines which correspond, or none. -/
inductive Meet : Option Ending → Option Ending → Prop where
  | unanswered : Meet none none
  | answered {r m m'} : σ.machine m m' → Meet (some (r, m)) (some (r, m'))

/-- Runs that correspond. -/
structure Abreast (env : Env) (j : Job) (m : Machine) (env' : Env) (j' : Job) (m' : Machine) :
    Prop where
  left : σ.left env j m
  right : σ.right env' j' m'
  env : σ.env env env'
  job : σ.Jobs j j'
  machine : σ.machine m m'

/-- The two sides agree on what a run sees, and on what it does. -/
structure Agree : Prop where
  enters_left {env j m env₁ j₁ m₁} :
    σ.left env j m → Enters env j m env₁ j₁ m₁ → σ.left env₁ j₁ m₁
  enters_right {env j m env₁ j₁ m₁} :
    σ.right env j m → Enters env j m env₁ j₁ m₁ → σ.right env₁ j₁ m₁
  hold {env env' p p' span} : σ.env env env' → σ.program p p' →
    σ.env (env.hold ⟨p, span⟩) (env'.hold ⟨p', span⟩)
  maxCallDepth {env env'} : σ.env env env' → env.config.maxCallDepth = env'.config.maxCallDepth
  -- What is read
  isTerminated {m m'} : σ.machine m m' → m.ctx.isTerminated = m'.ctx.isTerminated
  offerClaimed {m m'} : σ.machine m m' → m.ctx.offerClaimed = m'.ctx.offerClaimed
  depth {m m'} : σ.machine m m' → m.ctx.depth = m'.ctx.depth
  lookup {env j m env' j' m'} : σ.Abreast env j m env' j' m' →
    ∀ v ∈ j.reads, m.lookup v = m'.lookup v
  -- Blocks, loops and variables
  enterBlock {m m' p p' b} : σ.machine m m' → σ.program p p' →
    σ.machine (m.enterBlock ⟨p, b⟩) (m'.enterBlock ⟨p', b⟩)
  leaveBlock {m m' p p' b} : σ.machine m m' →
    σ.machine (m.leaveBlock ⟨p, b⟩) (m'.leaveBlock ⟨p', b⟩)
  offering {m m' p p' rest} : σ.machine m m' → σ.program p p' →
    σ.machine (offering p rest m) (offering p' rest m')
  enterLoop {m m'} : σ.machine m m' →
    σ.machine (m.modifyCtx Context.enterLoop) (m'.modifyCtx Context.enterLoop)
  exitLoop {m m'} : σ.machine m m' →
    σ.machine (m.modifyCtx Context.exitLoop) (m'.modifyCtx Context.exitLoop)
  setExit {m m'} : σ.machine m m' →
    σ.machine (m.modifyCtx Context.setExit) (m'.modifyCtx Context.setExit)
  breakOut {m m' span} : σ.machine m m' →
    σ.Meet (some (m.breakOut span)) (some (m'.breakOut span))
  note {m m' e} : σ.machine m m' → σ.machine (m.note e) (m'.note e)
  write {env j m env' j' m' v value} : σ.Abreast env j m env' j' m' →
    σ.machine (m.write v value) (m'.write v value)
  -- Calls
  resolve {env p c m env' p' m'} :
    σ.Abreast env (.stmt p (.call c)) m env' (.stmt p' (.call c)) m' →
    σ.Resolved (m.resolve env p c) (m'.resolve env' p' c)
  resolveModuleCall {env p module c m env' p' m'} :
    σ.Abreast env (.stmt p (.moduleCall module c)) m env' (.stmt p' (.moduleCall module c)) m' →
    σ.Resolved (m.resolveModuleCall env p module c) (m'.resolveModuleCall env' p' module c)
  enterCall {env p f args m env' p' m'} :
    σ.Abreast env (.script ⟨p, f⟩ args) m env' (.script ⟨p', f⟩ args) m' →
    m.ctx.depth + 1 ≤ env.config.maxCallDepth →
    (m.enterCall f args).1 = (m'.enterCall f args).1 ∧
      σ.machine (m.enterCall f args).2 (m'.enterCall f args).2
  abandonCall {env p f args m env' p' m' m₁ m₁'} :
    σ.Abreast env (.script ⟨p, f⟩ args) m env' (.script ⟨p', f⟩ args) m' →
    m₁.ctx.store = (m.enterCall f args).2.ctx.store →
    m₁'.ctx.store = (m'.enterCall f args).2.ctx.store → σ.machine m₁ m₁' →
    σ.machine (m₁.abandonCall m.ctx) (m₁'.abandonCall m'.ctx)
  leaveCall {env p f args m env' p' m' env₁ j₁ m₀ m₁ env₁' j₁' m₀' m₁'} :
    σ.Abreast env (.script ⟨p, f⟩ args) m env' (.script ⟨p', f⟩ args) m' →
    Enters env (.script ⟨p, f⟩ args) m env₁ j₁ m₀ → Ends env₁ j₁ m₀ (.ok ()) m₁ →
    Enters env' (.script ⟨p', f⟩ args) m' env₁' j₁' m₀' → Ends env₁' j₁' m₀' (.ok ()) m₁' →
    σ.machine m₁ m₁' → σ.machine (m₁.leaveCall m.ctx f args) (m₁'.leaveCall m'.ctx f args)
  -- Host functions
  answer {env name a m env' a' m' a₁ m₁} :
    σ.Abreast env (.action name a) m env' (.action name a') m' → a.answer? m = some (a₁, m₁) →
    ∃ a₁' m₁', a'.answer? m' = some (a₁', m₁') ∧ σ.action a₁ a₁' ∧ σ.machine m₁ m₁'
  waiting {env name a m env' a' m'} :
    σ.Abreast env (.action name a) m env' (.action name a') m' → a.answer? m = none →
    σ.Waiting a a'
  apart {env name b next m env' b' next' m'} :
    σ.Abreast env (.action name (.runApart b next)) m env' (.action name (.runApart b' next')) m' →
    σ.machine ⟨m.ctx.derive, m.world⟩ ⟨m'.ctx.derive, m'.world⟩ ∧
      ∀ x x', σ.machine x x' → σ.machine ⟨m.ctx, x.world⟩ ⟨m'.ctx, x'.world⟩
  task {env name b next m env' b' next' m'} :
    σ.Abreast env (.action name (.spawn b next)) m env' (.action name (.spawn b' next')) m' →
    σ.machine (taskMachine m) (taskMachine m') ∧
      ∀ r x x', σ.machine x x' → σ.machine (afterTask m r x) (afterTask m' r x')

section Reflexivity

variable {σ} (hp : ∀ p, σ.program p p) (ha : ∀ a, σ.action a a)
include hp ha

theorem Callables.refl (c : Callable) : σ.Callables c c := by
  cases c with
  | native name arity body => exact .native fun args => ha (body args)
  | script f => exact .script (hp f.program)

theorem Jobs.refl (j : Job) : σ.Jobs j j := by
  cases j with
  | block b | whileLoop _ b | forLoop _ _ _ b | times _ b | forEach _ _ b =>
    constructor
    exact hp b.program
  | stmts program | stmt program => constructor; exact hp program
  | invoke c => exact .invoke (.refl hp ha c)
  | script f => exact .script (hp f.program)
  | action name a => exact .action (ha a)

theorem Waiting.refl {a : Action} {m : Machine} (h : a.answer? m = none) : σ.Waiting a a := by
  cases a with
  | done => exact .done
  | fail => exact .fail
  | run b next => exact .run (hp b.program) fun r => ha (next r)
  | runApart b next => exact .runApart (hp b.program) fun r => ha (next r)
  | spawn b next => exact .spawn (hp b.program) (ha next)
  | _ => cases h

theorem Resolved.of_eq {x x' : Except EvalError Callable × Machine} (h : x.1 = x'.1)
    (hm : σ.machine x.2 x'.2) : σ.Resolved x x' := by
  obtain ⟨e | c, m⟩ := x <;> obtain ⟨e' | c', m'⟩ := x' <;> cases h
  · exact .error hm
  · exact .ok (.refl hp ha c) hm

end Reflexivity

theorem Meet.of_eq {σ : Sides} {x x' : Ending} (h : x.1 = x'.1) (hm : σ.machine x.2 x'.2) :
    σ.Meet (some x) (some x') := by
  obtain ⟨r, m⟩ := x
  obtain ⟨r', m'⟩ := x'
  cases h
  exact .answered hm

/-! ## The same course -/

variable {σ} {env env' env₁ env₁' : Env} {j j' j₁ j₁' : Job} {m m' m₁ m₁' : Machine}

/-- With the given fuel, runs that correspond have the same answer. -/
def InStep (σ : Sides) (n : Nat) : Prop :=
  ∀ {env j m env' j' m'}, σ.Abreast env j m env' j' m' →
    σ.Meet (j.run env n m) (j'.run env' n m')

namespace Meet

variable {x x' : Option Ending}

/-- A part of a run, and what comes after it whatever its result. -/
theorem onward {k k' : Except EvalError Unit → Machine → Option Ending} :
    σ.Meet x x' →
    (∀ r m m', x = some (r, m) → x' = some (r, m') → σ.machine m m' → σ.Meet (k r m) (k' r m')) →
    σ.Meet (match x with | none => none | some (r, m) => k r m)
      (match x' with | none => none | some (r, m) => k' r m) := by
  intro h hk
  cases h with
  | unanswered => exact .unanswered
  | answered hm => exact hk _ _ _ rfl rfl hm

/-- A part of a run, and what comes after it unless it fails. -/
theorem andThen {k k' : Machine → Option Ending} :
    σ.Meet x x' →
    (∀ m m', x = some (.ok (), m) → x' = some (.ok (), m') → σ.machine m m' →
      σ.Meet (k m) (k' m')) →
    σ.Meet
      (match x with
        | none => none
        | some (.error e, m) => some (.error e, m)
        | some (.ok (), m) => k m)
      (match x' with
        | none => none
        | some (.error e, m) => some (.error e, m)
        | some (.ok (), m) => k' m) := by
  intro h hk
  cases h with
  | unanswered => exact .unanswered
  | @answered r m m' hm =>
    cases r with
    | error e => exact .answered hm
    | ok => exact hk m m' rfl rfl hm

end Meet

theorem Abreast.enters (hσ : σ.Agree) (h : σ.Abreast env j m env' j' m')
    (he : Enters env j m env₁ j₁ m₁) (he' : Enters env' j' m' env₁' j₁' m₁')
    (henv : σ.env env₁ env₁') (hj : σ.Jobs j₁ j₁') (hm : σ.machine m₁ m₁') :
    σ.Abreast env₁ j₁ m₁ env₁' j₁' m₁' :=
  ⟨hσ.enters_left h.left he, hσ.enters_right h.right he', henv, hj, hm⟩

section Step

variable {n : Nat} {p p' : ProgramId} (hσ : σ.Agree) (ih : σ.InStep n)
include hσ ih

theorem meet_block {b : Block} (h : σ.Abreast env (.block ⟨p, b⟩) m env' (.block ⟨p', b⟩) m')
    (hp : σ.program p p') :
    σ.Meet (block env (n + 1) ⟨p, b⟩ m) (block env' (n + 1) ⟨p', b⟩ m') := by
  have hstmts : σ.Meet (stmts env n p b.stmts (m.enterBlock ⟨p, b⟩))
      (stmts env' n p' b.stmts (m'.enterBlock ⟨p', b⟩)) :=
    ih (h.enters hσ .block .block h.env (.stmts hp) (hσ.enterBlock h.machine hp))
  rw [block, block]
  exact hstmts.onward fun r m₁ m₁' _ _ hm => .answered (hσ.leaveBlock hm)

theorem meet_stmts {l : List Stmt} (h : σ.Abreast env (.stmts p l) m env' (.stmts p' l) m')
    (hp : σ.program p p') :
    σ.Meet (stmts env (n + 1) p l m) (stmts env' (n + 1) p' l m') := by
  cases l with
  | nil => rw [stmts, stmts]; exact .answered h.machine
  | cons s rest =>
    rw [stmts, stmts, ← hσ.isTerminated h.machine]
    split
    · exact .answered h.machine
    · next ht =>
      have ht := Bool.eq_false_iff.mpr ht
      have ht' := (hσ.isTerminated h.machine).symm.trans ht
      have hfirst : σ.Meet (stmt env n p s (offering p rest m))
          (stmt env' n p' s (offering p' rest m')) :=
        ih (h.enters hσ (.first ht) (.first ht') h.env (.stmt hp) (hσ.offering h.machine hp))
      refine hfirst.andThen fun m₁ m₁' hl hr hm => ?_
      have hrest : remaining rest m₁' = remaining rest m₁ := by
        rw [remaining, remaining, hσ.offerClaimed hm]
      have hthen := Enters.rest ht' (.of_stmt hr)
      rw [hrest] at hthen
      have hnext := ih (h.enters hσ (.rest ht (.of_stmt hl)) hthen h.env (.stmts hp) hm)
      rw [← hσ.offerClaimed hm]
      exact hnext

theorem meet_whileLoop {condition : Conditions} {b : Block}
    (h : σ.Abreast env (.whileLoop condition ⟨p, b⟩) m env' (.whileLoop condition ⟨p', b⟩) m')
    (hp : σ.program p p') :
    σ.Meet (whileLoop env (n + 1) condition ⟨p, b⟩ m)
      (whileLoop env' (n + 1) condition ⟨p', b⟩ m') := by
  have hcondition : condition.eval m.lookup = condition.eval m'.lookup :=
    Conditions.eval_congr (hσ.lookup h)
  rw [whileLoop, whileLoop, ← hσ.isTerminated h.machine, ← hcondition]
  split
  · exact .answered h.machine
  · next ht =>
    have ht := Bool.eq_false_iff.mpr ht
    have ht' := (hσ.isTerminated h.machine).symm.trans ht
    rcases hc : condition.eval m.lookup with e | _ | _
    · exact .answered h.machine
    · exact .answered h.machine
    · have hc' := hcondition.symm.trans hc
      have hbody : σ.Meet (block env n ⟨p, b⟩ m) (block env' n ⟨p', b⟩ m') :=
        ih (h.enters hσ (.whileBody ht hc) (.whileBody ht' hc') h.env (.block hp) h.machine)
      exact hbody.andThen fun m₁ m₁' hl hr hm =>
        ih (h.enters hσ (.whileNext ht hc (.of_block hl)) (.whileNext ht' hc' (.of_block hr)) h.env
          (.whileLoop hp) hm)

theorem meet_forLoop {dest : Term} {d s : Value} {b : Block} {span : Span}
    (h : σ.Abreast env (.forLoop dest d s ⟨p, b⟩ span) m env' (.forLoop dest d s ⟨p', b⟩ span) m')
    (hp : σ.program p p') :
    σ.Meet (forLoop env (n + 1) dest d s ⟨p, b⟩ span m)
      (forLoop env' (n + 1) dest d s ⟨p', b⟩ span m') := by
  rw [forLoop.eq_def, forLoop.eq_def]
  dsimp only
  split
  · next hd hs =>
    exact ih (h.enters hσ (.forRange hd hs) (.forRange hd hs) h.env (.times hp) h.machine)
  · split
    · next hv _ =>
      exact ih (h.enters hσ (.forArray hv) (.forArray hv) h.env (.forEach hp) h.machine)
    · exact .answered (hσ.note h.machine)

theorem meet_times {count : Nat} {b : Block}
    (h : σ.Abreast env (.times count ⟨p, b⟩) m env' (.times count ⟨p', b⟩) m')
    (hp : σ.program p p') :
    σ.Meet (times env (n + 1) count ⟨p, b⟩ m) (times env' (n + 1) count ⟨p', b⟩ m') := by
  rw [times, times, ← hσ.isTerminated h.machine]
  split
  · exact .answered h.machine
  · next hgo =>
    obtain ⟨hpos, ht⟩ := not_or.mp hgo
    obtain ⟨k, rfl⟩ := Nat.exists_eq_succ_of_ne_zero hpos
    have ht := Bool.eq_false_iff.mpr ht
    have ht' := (hσ.isTerminated h.machine).symm.trans ht
    have hbody : σ.Meet (block env n ⟨p, b⟩ m) (block env' n ⟨p', b⟩ m') :=
      ih (h.enters hσ (.timesBody ht) (.timesBody ht') h.env (.block hp) h.machine)
    exact hbody.andThen fun m₁ m₁' hl hr hm =>
      ih (h.enters hσ (.timesNext ht (.of_block hl)) (.timesNext ht' (.of_block hr)) h.env
        (.times hp) hm)

theorem meet_forEach {v : Var} {items : List Value} {b : Block}
    (h : σ.Abreast env (.forEach v items ⟨p, b⟩) m env' (.forEach v items ⟨p', b⟩) m')
    (hp : σ.program p p') :
    σ.Meet (forEach env (n + 1) v items ⟨p, b⟩ m) (forEach env' (n + 1) v items ⟨p', b⟩ m') := by
  cases items with
  | nil => rw [forEach, forEach]; exact .answered h.machine
  | cons item rest =>
    rw [forEach, forEach, ← hσ.isTerminated h.machine]
    split
    · exact .answered h.machine
    · next ht =>
      have ht := Bool.eq_false_iff.mpr ht
      have ht' := (hσ.isTerminated h.machine).symm.trans ht
      have hbody : σ.Meet (block env n ⟨p, b⟩ (m.write v item))
          (block env' n ⟨p', b⟩ (m'.write v item)) :=
        ih (h.enters hσ (.forEachBody ht) (.forEachBody ht') h.env (.block hp) (hσ.write h))
      exact hbody.andThen fun m₁ m₁' hl hr hm =>
        ih (h.enters hσ (.forEachNext ht (.of_block hl)) (.forEachNext ht' (.of_block hr)) h.env
          (.forEach hp) hm)

theorem meet_invoke {c c' : Callable} {args : List Expr}
    (h : σ.Abreast env (.invoke c args) m env' (.invoke c' args) m') (hc : σ.Callables c c') :
    σ.Meet (invoke env (n + 1) c args m) (invoke env' (n + 1) c' args m') := by
  cases hc with
  | script hp =>
    rw [invoke, invoke]
    exact ih (h.enters hσ .invokeScript .invokeScript h.env (.script hp) h.machine)
  | native hbody =>
    rw [invoke_native, invoke_native]
    exact ih (h.enters hσ .invokeNative .invokeNative h.env (.action (hbody args)) h.machine)

theorem meet_script {f : FnDef} {args : List Expr}
    (h : σ.Abreast env (.script ⟨p, f⟩ args) m env' (.script ⟨p', f⟩ args) m')
    (hp : σ.program p p') :
    σ.Meet (script env (n + 1) ⟨p, f⟩ args m) (script env' (n + 1) ⟨p', f⟩ args m') := by
  rw [script_succ, script_succ, ← hσ.maxCallDepth h.env, ← hσ.depth h.machine]
  split
  · exact .answered h.machine
  · next hdeep =>
    have hdeep := Nat.le_of_not_lt hdeep
    have hdeep' : m'.ctx.depth + 1 ≤ env'.config.maxCallDepth := by
      rwa [← hσ.maxCallDepth h.env, ← hσ.depth h.machine]
    obtain ⟨hresult, hentered⟩ := hσ.enterCall h hdeep
    have habandon {m₁ m₁' : Machine} (hs : m₁.ctx.store = (m.enterCall f args).2.ctx.store)
        (hs' : m₁'.ctx.store = (m'.enterCall f args).2.ctx.store) (hm : σ.machine m₁ m₁') :
        σ.machine (m₁.abandonCall m.ctx) (m₁'.abandonCall m'.ctx) := hσ.abandonCall h hs hs' hm
    rcases hl : m.enterCall f args with ⟨r, m₀⟩
    rcases hr : m'.enterCall f args with ⟨r', m₀'⟩
    rw [hl, hr] at hresult hentered habandon
    obtain rfl : r = r' := hresult
    cases r with
    | error e => exact .answered (habandon rfl rfl hentered)
    | ok =>
      have hin := Enters.body (f := ⟨p, f⟩) hdeep hl
      have hin' := Enters.body (f := ⟨p', f⟩) hdeep' hr
      have hbody : σ.Meet (block (env.hold (.ofFunction ⟨p, f⟩)) n ⟨p, f.body⟩ m₀)
          (block (env'.hold (.ofFunction ⟨p', f⟩)) n ⟨p', f.body⟩ m₀') :=
        ih (h.enters hσ hin hin' (hσ.hold h.env hp) (.block hp) hentered)
      dsimp only
      generalize hx : block (env.hold (.ofFunction ⟨p, f⟩)) n ⟨p, f.body⟩ m₀ = x at hbody ⊢
      generalize hx' : block (env'.hold (.ofFunction ⟨p', f⟩)) n ⟨p', f.body⟩ m₀' = x' at hbody ⊢
      cases hbody with
      | unanswered => exact .unanswered
      | @answered r m₁ m₁' hm =>
        have hends := Ends.of_block hx
        have hends' := Ends.of_block hx'
        cases r with
        | error e =>
          exact .answered (habandon hends.restores.1.store hends'.restores.1.store hm)
        | ok => exact .answered (hσ.leaveCall h hin hends hin' hends' hm)

theorem meet_stmt {s : Stmt} (h : σ.Abreast env (.stmt p s) m env' (.stmt p' s) m')
    (hp : σ.program p p') :
    σ.Meet (stmt env (n + 1) p s m) (stmt env' (n + 1) p' s m') := by
  rw [stmt.eq_def, stmt.eq_def]
  cases s with
  | block b => exact ih (h.enters hσ .stmtBlock .stmtBlock h.env (.block hp) h.machine)
  | assign target value span =>
    dsimp only [assign]
    rw [← Expr.eval_congr (hσ.lookup h)]
    cases value.eval m.lookup with
    | error e => exact .answered h.machine
    | ok v => exact .answered (hσ.write h)
  | ifElse condition body otherwise span =>
    have hcondition : condition.eval m.lookup = condition.eval m'.lookup :=
      Conditions.eval_congr (hσ.lookup h)
    dsimp only
    rw [← hcondition]
    rcases hc : condition.eval m.lookup with e | _ | _
    · exact .answered h.machine
    · have hc' := hcondition.symm.trans hc
      cases otherwise with
      | none => exact .answered h.machine
      | some b => exact ih (h.enters hσ (.ifFalse hc) (.ifFalse hc') h.env (.block hp) h.machine)
    · have hc' := hcondition.symm.trans hc
      exact ih (h.enters hσ (.ifTrue hc) (.ifTrue hc') h.env (.block hp) h.machine)
  | whileLoop condition body span =>
    have hloop : σ.Meet (whileLoop env n condition ⟨p, body⟩ (m.modifyCtx Context.enterLoop))
        (whileLoop env' n condition ⟨p', body⟩ (m'.modifyCtx Context.enterLoop)) :=
      ih (h.enters hσ .stmtWhile .stmtWhile h.env (.whileLoop hp) (hσ.enterLoop h.machine))
    exact hloop.onward fun _ _ _ _ _ hm => .answered (hσ.exitLoop hm)
  | forLoop dest src body span =>
    have hdest : dest.eval m.lookup = dest.eval m'.lookup :=
      Term.eval_congr fun v hv => hσ.lookup h v (List.mem_append_left _ hv)
    have hsrc : src.eval m.lookup = src.eval m'.lookup :=
      Term.eval_congr fun v hv => hσ.lookup h v (List.mem_append_right _ hv)
    dsimp only
    rw [← hdest, ← hsrc]
    cases hd : dest.eval m.lookup with
    | error e => exact .answered h.machine
    | ok d =>
      cases hs : src.eval m.lookup with
      | error e => exact .answered h.machine
      | ok s =>
        have hd' := hdest.symm.trans hd
        have hs' := hsrc.symm.trans hs
        have hloop : σ.Meet
            (forLoop env n dest d s ⟨p, body⟩ span (m.modifyCtx Context.enterLoop))
            (forLoop env' n dest d s ⟨p', body⟩ span (m'.modifyCtx Context.enterLoop)) :=
          ih (h.enters hσ (.stmtFor hd hs) (.stmtFor hd' hs') h.env (.forLoop hp)
            (hσ.enterLoop h.machine))
        exact hloop.onward fun _ _ _ _ _ hm => .answered (hσ.exitLoop hm)
  | breakLoop span => exact hσ.breakOut h.machine
  | endCode span => exact .answered (hσ.setExit h.machine)
  | call c =>
    have hresolved := hσ.resolve h
    dsimp only
    generalize hl : m.resolve env p c = x at hresolved ⊢
    generalize hr : m'.resolve env' p' c = x' at hresolved ⊢
    cases hresolved with
    | error hm => exact .answered hm
    | ok hc hm => exact ih (h.enters hσ (.call hl) (.call hr) h.env (.invoke hc) hm)
  | moduleCall module c =>
    have hresolved := hσ.resolveModuleCall h
    dsimp only
    generalize hl : m.resolveModuleCall env p module c = x at hresolved ⊢
    generalize hr : m'.resolveModuleCall env' p' module c = x' at hresolved ⊢
    cases hresolved with
    | error hm => exact .answered hm
    | ok hc hm => exact ih (h.enters hσ (.moduleCall hl) (.moduleCall hr) h.env (.invoke hc) hm)

/-- A task uses up one unit of fuel more than a block that is run directly, hence `ih'`. -/
theorem meet_action (ih' : σ.InStep (n - 1)) {name : String} {a a' : Action}
    (h : σ.Abreast env (.action name a) m env' (.action name a') m') :
    σ.Meet (Job.run env (n + 1) (.action name a) m)
      (Job.run env' (n + 1) (.action name a') m') := by
  cases ha : a.answer? m with
  | some next =>
    obtain ⟨a₁, m₁⟩ := next
    obtain ⟨a₁', m₁', ha', hnext, hm⟩ := hσ.answer h ha
    rw [Job.run, Job.run, action_request _ n ha, action_request _ n ha']
    exact ih (h.enters hσ (.request ha) (.request ha') h.env (.action hnext) hm)
  | none =>
    cases hσ.waiting h ha with
    | done => rw [Job.run, Job.run, Eval.action, Eval.action]; exact .answered h.machine
    | fail => rw [Job.run, Job.run, Eval.action, Eval.action]; exact .answered h.machine
    | @run p p' b next next' hp hnext =>
      rw [run_succ_run, run_succ_run]
      have hblock : σ.Meet (block (env.hold (.ofBlock ⟨p, b⟩)) n ⟨p, b⟩ m)
          (block (env'.hold (.ofBlock ⟨p', b⟩)) n ⟨p', b⟩ m') :=
        ih (h.enters hσ .run .run (hσ.hold h.env hp) (.block hp) h.machine)
      exact hblock.onward fun r m₁ m₁' hl hr hm =>
        ih (h.enters hσ (.afterRun (.of_block hl)) (.afterRun (.of_block hr)) h.env
          (.action (hnext r)) hm)
    | @runApart p p' b next next' hp hnext =>
      obtain ⟨hderived, hback⟩ := hσ.apart h
      rw [run_succ_runApart, run_succ_runApart]
      have hblock : σ.Meet
          (block (env.hold (.ofBlock ⟨p, b⟩)) n ⟨p, b⟩ ⟨m.ctx.derive, m.world⟩)
          (block (env'.hold (.ofBlock ⟨p', b⟩)) n ⟨p', b⟩ ⟨m'.ctx.derive, m'.world⟩) :=
        ih (h.enters hσ .runApart .runApart (hσ.hold h.env hp) (.block hp) hderived)
      exact hblock.onward fun r m₁ m₁' hl hr hm =>
        ih (h.enters hσ (.afterRunApart (.of_block hl)) (.afterRunApart (.of_block hr)) h.env
          (.action (hnext r)) (hback m₁ m₁' hm))
    | @spawn p p' b next next' hp hnext =>
      obtain ⟨hstarted, hback⟩ := hσ.task h
      rw [run_succ_spawn, run_succ_spawn]
      have hblock : σ.Meet
          (block (env.hold (.ofBlock ⟨p, b⟩)) (n - 1) ⟨p, b⟩ (taskMachine m))
          (block (env'.hold (.ofBlock ⟨p', b⟩)) (n - 1) ⟨p', b⟩ (taskMachine m')) :=
        ih' (h.enters hσ .spawn .spawn (hσ.hold h.env hp) (.block hp) hstarted)
      exact hblock.onward fun r m₁ m₁' hl hr hm =>
        ih (h.enters hσ (.afterTask (.of_block hl)) (.afterTask (.of_block hr)) h.env
          (.action hnext) (hback r m₁ m₁' hm))

end Step

/-- Without fuel there is no answer. -/
theorem inStep_zero : σ.InStep 0 := by
  intro env j m env' j' m' h
  cases h.job <;> simp only [Job.run, Eval.block, Eval.stmts, Eval.stmt, Eval.whileLoop,
    Eval.forLoop, Eval.times, Eval.forEach, Eval.invoke, Eval.script, Eval.action,
    Option.map_none] <;> exact .unanswered

theorem inStep_succ {n : Nat} (hσ : σ.Agree) (ih : σ.InStep n) (ih' : σ.InStep (n - 1)) :
    σ.InStep (n + 1) := by
  intro env j m env' j' m' h
  cases h.job with
  | block hp => exact meet_block hσ ih h hp
  | stmts hp => exact meet_stmts hσ ih h hp
  | stmt hp => exact meet_stmt hσ ih h hp
  | whileLoop hp => exact meet_whileLoop hσ ih h hp
  | forLoop hp => exact meet_forLoop hσ ih h hp
  | times hp => exact meet_times hσ ih h hp
  | forEach hp => exact meet_forEach hσ ih h hp
  | invoke hc => exact meet_invoke hσ ih h hc
  | script hp => exact meet_script hσ ih h hp
  | action => exact meet_action hσ ih ih' h

/-- Runs that correspond have the same answer, with whatever fuel, if the two sides agree. -/
theorem Agree.meet (hσ : σ.Agree) (n : Nat) : σ.InStep n := by
  induction n using Nat.strongRecOn with
  | ind n ih =>
    cases n with
    | zero => exact inStep_zero
    | succ n => exact inStep_succ hσ (ih n (by omega)) (ih (n - 1) (by omega))

/-- What answers show that meet. -/
theorem Meet.map_eq {α : Type} {f g : Machine → α} {x x' : Option Ending} (h : σ.Meet x x')
    (hσ : ∀ {m m'}, σ.machine m m' → f m = g m') :
    (x.map fun e => (e.1, f e.2)) = x'.map fun e => (e.1, g e.2) := by
  cases h with
  | unanswered => rfl
  | answered hm => exact congrArg some (Prod.ext rfl (hσ hm))

end Sides

end Eval

end TierScript
