import TierScript.Proofs.Run.Pooling
import TierScript.Proofs.Run.Simulation

/-!
# Runs without a pool

`Machine.unpooled` is the same machine with a pool that keeps no contexts, so that every context it
takes is a new one.

* `Smooth env j m`: no call takes a stale context from the pool while the job `j` runs on the
  machine `m`.
* `run_unpooled`: then there is no difference. Every job, with whatever fuel, gives the same answer
  on both machines, and leaves the same machine but for the pool.
-/

namespace TierScript

/-! ## Pools that keep nothing -/

/-- The same configuration, without idle contexts. -/
def Config.unpooled (c : Config) : Config := { c with poolCapacity := 0 }

/-- The same environment, without idle contexts. -/
def Env.unpooled (env : Env) : Env := { env with config := env.config.unpooled }

/-- The same world with a pool that keeps nothing. -/
def World.unpooled (w : World) : World := { w with pool := { capacity := 0 } }

/-- The same machine with a pool that keeps nothing. -/
def Machine.unpooled (m : Machine) : Machine := { m with world := m.world.unpooled }

/-- The same answer, with a pool that keeps nothing on the machine that is left. -/
def unpool {α : Type} (answer : α × Machine) : α × Machine := (answer.1, answer.2.unpooled)

namespace World

theorem LikeNew.unpooled_obtain {w : World} {session : SessionId} (h : w.LikeNew session) :
    w.unpooled.obtain session = ((w.obtain session).1, (w.obtain session).2.unpooled) := by
  obtain ⟨hctx, hstores⟩ := Prod.mk.inj h
  have hkept : (w.obtain session).2.unpooled =
      { w.unpooled with stores := (w.obtain session).2.stores } := rfl
  rw [hkept, hctx, hstores]
  rfl

end World

namespace Machine

variable {m : Machine}

@[simp] theorem unpooled_ctx (m : Machine) : m.unpooled.ctx = m.ctx := rfl

theorem unpooled_breakOut (m : Machine) (span : Span) :
    m.unpooled.breakOut span = unpool (m.breakOut span) := by
  unfold breakOut
  rw [unpooled_ctx]
  rcases m.ctx.breakLoop with ⟨_ | _, ctx⟩ <;> rfl

theorem unpooled_copyBack (f : FnDef) (args : List Expr) (callee : Context) (outs : List Nat)
    (m : Machine) :
    copyBack f args callee m.unpooled outs = (copyBack f args callee m outs).unpooled := by
  induction outs generalizing m with
  | nil => rfl
  | cons position rest ih =>
    rw [copyBack, copyBack]
    split
    · next target param _ _ => exact ih (m.write target (callee.locals.get param))
    · exact ih m

theorem unpooled_leaveCall (m : Machine) (caller : Context) (f : FnDef) (args : List Expr) :
    m.unpooled.leaveCall caller f args = (m.leaveCall caller f args).unpooled := by
  have hback := unpooled_copyBack f args m.ctx f.outs ⟨caller, m.world⟩
  unfold leaveCall
  exact congrArg (fun back : Machine => { back with world := back.world.release m.ctx }) hback

theorem unpooled_enterCall (h : m.world.LikeNew m.ctx.session) (f : FnDef) (args : List Expr) :
    m.unpooled.enterCall f args = unpool (m.enterCall f args) := by
  unfold enterCall
  rw [show m.unpooled.world = m.world.unpooled from rfl, unpooled_ctx, h.unpooled_obtain]
  rfl

theorem unpooled_answer (a : Action) (m : Machine) :
    a.answer? m.unpooled = (a.answer? m).map unpool := by
  cases a <;> rfl

/-! ## Resolving calls -/

theorem unpooled_resolve (env : Env) (program : ProgramId) (c : Call) (m : Machine) :
    m.unpooled.resolve env.unpooled program c = unpool (m.resolve env program c) := by
  unfold resolve
  dsimp only
  have hrem : m.unpooled.remembered? env.unpooled (c.site program) =
      m.remembered? env (c.site program) := rfl
  have hsearch : search? env.unpooled m.unpooled.ctx c.name c.arity =
      search? env m.ctx c.name c.arity := rfl
  rw [hrem, hsearch]
  cases m.remembered? env (c.site program) with
  | some callable => rfl
  | none => rcases search? env m.ctx c.name c.arity with _ | ⟨callable, resolution, event⟩ <;> rfl

theorem unpooled_resolveModule (env : Env) (site : CallSite) (module : String) (m : Machine) :
    m.unpooled.resolveModule env.unpooled site module =
      unpool (m.resolveModule env site module) := by
  have hfresh : resolveModule.fresh env.unpooled site module m.unpooled =
      unpool (resolveModule.fresh env site module m) := by
    unfold resolveModule.fresh
    rw [show env.unpooled.registry = env.registry from rfl]
    cases env.registry.moduleId? module <;> rfl
  unfold resolveModule
  rw [hfresh, show m.unpooled.world.moduleCalls = m.world.moduleCalls from rfl,
    show env.unpooled.registry = env.registry from rfl]
  split
  · split <;> rfl
  · rfl

theorem unpooled_resolveIn (env : Env) (site : CallSite) (module : Module) (m : Machine) :
    m.unpooled.resolveIn env.unpooled site module = unpool (m.resolveIn env site module) := by
  unfold resolveIn
  rw [show m.unpooled.world.calls = m.world.calls from rfl,
    show env.unpooled.registry = env.registry from rfl]
  dsimp only
  split
  · rfl
  · split <;> rfl

theorem unpooled_resolveModuleCall (env : Env) (program : ProgramId) (module : String) (c : Call)
    (m : Machine) :
    m.unpooled.resolveModuleCall env.unpooled program module c =
      unpool (m.resolveModuleCall env program module c) := by
  unfold resolveModuleCall
  dsimp only
  rw [unpooled_resolveModule, show env.unpooled.registry = env.registry from rfl]
  rcases m.resolveModule env (c.moduleSite program module) module with ⟨_ | id, m₁⟩
  · rfl
  · dsimp only [unpool]
    cases env.registry.modules[id]? with
    | none => rfl
    | some found =>
      dsimp only
      rw [unpooled_resolveIn]
      rcases m₁.resolveIn env (c.moduleSite program module) found with ⟨_ | callable, m₂⟩ <;> rfl

end Machine

/-! ## The evaluator -/

namespace Eval

open Machine

/-- No call takes a stale context from the pool while the job runs. -/
structure Smooth (env : Env) (j : Job) (m : Machine) : Prop where
  cleared : m.world.pool.Cleared
  unstale : ∀ {env' f args m'}, Reaches env j m env' (.script f args) m' →
    m'.ctx.depth + 1 ≤ env'.config.maxCallDepth → ¬ m'.world.Stale m'.ctx.session

theorem Smooth.part {env env' : Env} {j j' : Job} {m m' : Machine} (h : Smooth env j m)
    (he : Enters env j m env' j' m') : Smooth env' j' m' where
  cleared := he.upkeep (upkeep_cleared _) h.cleared
  unstale hr := h.unstale (.part he hr)

theorem Smooth.likeNew {env : Env} {f : Linked FnDef} {args : List Expr} {m : Machine}
    (h : Smooth env (.script f args) m) (hdeep : m.ctx.depth + 1 ≤ env.config.maxCallDepth) :
    m.world.LikeNew m.ctx.session :=
  (World.likeNew_iff h.cleared).mpr (h.unstale .here hdeep)

/-- A smooth run, and the same run with a pool that keeps nothing. -/
def poolless : Sides where
  left := Smooth
  right _ _ _ := True
  env env env' := env.unpooled = env'
  program := Eq
  action := Eq
  machine m m' := m.unpooled = m'

theorem agree_poolless : poolless.Agree where
  enters_left := Smooth.part
  enters_right _ _ := trivial
  hold := by rintro env _ p _ span rfl rfl; rfl
  maxCallDepth := by rintro env _ rfl; rfl
  isTerminated := by rintro m _ rfl; rfl
  offerClaimed := by rintro m _ rfl; rfl
  depth := by rintro m _ rfl; rfl
  lookup h := by cases h.machine; exact fun _ _ => rfl
  enterBlock := by rintro m _ p _ b rfl rfl; rfl
  leaveBlock := by rintro m _ p p' b rfl; rfl
  offering := by rintro m _ p _ rest rfl rfl; rfl
  enterLoop := by rintro m _ rfl; rfl
  exitLoop := by rintro m _ rfl; rfl
  setExit := by rintro m _ rfl; rfl
  breakOut := by
    rintro m _ span rfl
    rw [unpooled_breakOut]
    exact .answered rfl
  note := by rintro m _ e rfl; rfl
  write h := by cases h.machine; rfl
  resolve h := by
    cases h.machine
    cases h.env
    cases h.job with
    | stmt hp =>
      cases hp
      rw [unpooled_resolve]
      exact .of_eq (fun _ => rfl) (fun _ => rfl) rfl rfl
  resolveModuleCall h := by
    cases h.machine
    cases h.env
    cases h.job with
    | stmt hp =>
      cases hp
      rw [unpooled_resolveModuleCall]
      exact .of_eq (fun _ => rfl) (fun _ => rfl) rfl rfl
  enterCall h hdeep := by
    -- The one place where the pool decides on which context a job runs.
    have hnew := h.left.likeNew hdeep
    cases h.machine
    rw [unpooled_enterCall hnew]
    exact ⟨rfl, rfl⟩
  abandonCall h _ _ hm := by cases h.machine; cases hm; rfl
  leaveCall h _ _ _ _ hm := by
    cases h.machine
    cases hm
    exact (unpooled_leaveCall ..).symm
  answer h ha := by
    cases h.machine
    cases h.job with
    | action haction =>
      cases haction
      rw [unpooled_answer, ha]
      exact ⟨_, _, rfl, rfl, rfl⟩
  waiting h ha := by
    cases h.job with
    | action haction =>
      cases haction
      exact .refl (fun _ => rfl) (fun _ => rfl) ha
  apart h := by
    cases h.machine
    refine ⟨rfl, ?_⟩
    rintro x _ rfl
    rfl
  task h := by
    cases h.machine
    refine ⟨rfl, ?_⟩
    rintro r x _ rfl
    cases r <;> rfl

/-- Whether the pool keeps contexts makes no difference to smooth runs. -/
theorem run_unpooled {env : Env} {j : Job} {m : Machine} (hm : Smooth env j m) (n : Nat) :
    j.run env.unpooled n m.unpooled = (j.run env n m).map unpool := by
  have hjob : poolless.Jobs j j := .refl (fun _ => rfl) (fun _ => rfl) j
  have hmeet := agree_poolless.meet n ⟨hm, trivial, rfl, hjob, rfl⟩
  exact ((hmeet.map_eq fun h => h).trans Option.map_id').symm

theorem blame_injective (name : String) : Function.Injective (blame name) := by
  rintro (cause | _) (cause' | _) h <;> cases h <;> rfl

theorem action_unpooled {env : Env} {name : String} {a : Action} {m : Machine}
    (hm : Smooth env (.action name a) m) (n : Nat) :
    action env.unpooled n a m.unpooled = (action env n a m).map unpool := by
  have hrun := run_unpooled hm n
  have hblame : Function.Injective fun e : Except Cause Unit × Machine => (blame name e.1, e.2) :=
    fun _ _ h => Prod.ext (blame_injective name (Prod.mk.inj h).1) (Prod.mk.inj h).2
  refine Option.map_injective hblame (hrun.trans ?_)
  rw [Job.run, Option.map_map, Option.map_map]
  rfl

theorem task_unpooled {env : Env} {b : Linked Block} {m : Machine}
    (hm : Smooth (env.hold (.ofBlock b)) (.block b) (taskMachine m)) (n : Nat) :
    task env.unpooled n b m.unpooled = (task env n b m).map Machine.unpooled := by
  have hblock := run_unpooled hm (n - 1)
  have hhold : env.unpooled.hold (.ofBlock b) = (env.hold (.ofBlock b)).unpooled := rfl
  have hstarted : taskMachine m.unpooled = (taskMachine m).unpooled := rfl
  rw [Job.run, Job.run] at hblock
  rw [task_eq, task_eq, hhold, hstarted, hblock, Option.map_map, Option.map_map]
  refine congrArg (Option.map · _) (funext fun e => ?_)
  obtain ⟨r, apart⟩ := e
  cases r <;> rfl

theorem program_unpooled {env : Env} {p : Linked Block} {m : Machine}
    (hm : Smooth env (.block p) (begun p m)) (fuel : Nat) :
    program env.unpooled fuel p m.unpooled = (program env fuel p m).map unpool :=
  run_unpooled hm fuel

theorem pooled_unpooled {env : Env} {session : SessionId} {p : Linked Block} {w : World}
    (hw : w.LikeNew session)
    (hm : Smooth env (.block p) (begun p ⟨(w.obtain session).1, (w.obtain session).2⟩))
    (fuel : Nat) :
    pooled env.unpooled fuel session p w.unpooled =
      (pooled env fuel session p w).map fun answer => (answer.1, answer.2.unpooled) := by
  have hrun := program_unpooled hm fuel
  unfold pooled
  rw [hw.unpooled_obtain]
  dsimp only [Machine.unpooled] at hrun ⊢
  rw [hrun]
  cases program env fuel p ⟨(w.obtain session).1, (w.obtain session).2⟩ <;> rfl

end Eval

end TierScript
