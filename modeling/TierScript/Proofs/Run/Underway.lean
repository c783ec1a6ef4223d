import TierScript.Proofs.Run.Stacks
import TierScript.Proofs.Run.Upkeep

/-!
# Runs under way

`Ends` describes runs from their start to their end. Here are the moments in between, also those of
runs that never end.

* `Enters env j m env' j' m'`: running the job `j` on the machine `m` comes to running the job `j'`
  on the machine `m'` as one of its parts. There is one rule for each part that a job has.
* `Reaches` is the same for parts of parts, however deep.
* `Reaches.upkeep`: what every run keeps of the world holds at every moment of a run.
-/

namespace TierScript

namespace Eval

open Machine

/-! ## The parts of a job -/

/-- The second job is a part of the first one. What comes before it has ended. -/
inductive Enters : Env → Job → Machine → Env → Job → Machine → Prop where
  | block {env b m} :
      Enters env (.block b) m env (.stmts b.program b.node.stmts) (m.enterBlock b)
  | first {env program s rest m} :
      m.ctx.isTerminated = false →
      Enters env (.stmts program (s :: rest)) m env (.stmt program s) (offering program rest m)
  | rest {env program s rest m m₁} :
      m.ctx.isTerminated = false →
      Ends env (.stmt program s) (offering program rest m) (.ok ()) m₁ →
      Enters env (.stmts program (s :: rest)) m env (.stmts program (remaining rest m₁)) m₁
  -- One statement
  | stmtBlock {env program b m} :
      Enters env (.stmt program (.block b)) m env (.block ⟨program, b⟩) m
  | ifTrue {env program condition body otherwise span m} :
      condition.eval m.lookup = .ok true →
      Enters env (.stmt program (.ifElse condition body otherwise span)) m
        env (.block ⟨program, body⟩) m
  | ifFalse {env program condition body b span m} :
      condition.eval m.lookup = .ok false →
      Enters env (.stmt program (.ifElse condition body (some b) span)) m
        env (.block ⟨program, b⟩) m
  | stmtWhile {env program condition body span m} :
      Enters env (.stmt program (.whileLoop condition body span)) m
        env (.whileLoop condition ⟨program, body⟩) (m.modifyCtx Context.enterLoop)
  | stmtFor {env program dest src body span m d s} :
      dest.eval m.lookup = .ok d → src.eval m.lookup = .ok s →
      Enters env (.stmt program (.forLoop dest src body span)) m
        env (.forLoop dest d s ⟨program, body⟩ span) (m.modifyCtx Context.enterLoop)
  | call {env program c m callable m₁} :
      m.resolve env program c = (.ok callable, m₁) →
      Enters env (.stmt program (.call c)) m env (.invoke callable c.args) m₁
  | moduleCall {env program module c m callable m₁} :
      m.resolveModuleCall env program module c = (.ok callable, m₁) →
      Enters env (.stmt program (.moduleCall module c)) m env (.invoke callable c.args) m₁
  -- Loops
  | whileBody {env condition body m} :
      m.ctx.isTerminated = false → condition.eval m.lookup = .ok true →
      Enters env (.whileLoop condition body) m env (.block body) m
  | whileNext {env condition body m m₁} :
      m.ctx.isTerminated = false → condition.eval m.lookup = .ok true →
      Ends env (.block body) m (.ok ()) m₁ →
      Enters env (.whileLoop condition body) m env (.whileLoop condition body) m₁
  | forRange {env dest d s body span m first last} :
      d.toInteger? = some first → s.toInteger? = some last →
      Enters env (.forLoop dest d s body span) m env (.times (rangeCount first last) body) m
  | forArray {env dest d items body span m v} :
      dest.plainVar? = some v →
      Enters env (.forLoop dest d (.array items) body span) m env (.forEach v items body) m
  | timesBody {env count body m} :
      m.ctx.isTerminated = false → Enters env (.times (count + 1) body) m env (.block body) m
  | timesNext {env count body m m₁} :
      m.ctx.isTerminated = false → Ends env (.block body) m (.ok ()) m₁ →
      Enters env (.times (count + 1) body) m env (.times count body) m₁
  | forEachBody {env v item rest body m} :
      m.ctx.isTerminated = false →
      Enters env (.forEach v (item :: rest) body) m env (.block body) (m.write v item)
  | forEachNext {env v item rest body m m₁} :
      m.ctx.isTerminated = false → Ends env (.block body) (m.write v item) (.ok ()) m₁ →
      Enters env (.forEach v (item :: rest) body) m env (.forEach v rest body) m₁
  -- Calls
  | invokeScript {env f args m} :
      Enters env (.invoke (.script f) args) m env (.script f args) m
  | invokeNative {env name arity body args m} :
      Enters env (.invoke (.native name arity body) args) m env (.action name (body args)) m
  | body {env f args m m₀} :
      m.ctx.depth + 1 ≤ env.config.maxCallDepth →
      m.enterCall f.node args = (.ok (), m₀) →
      Enters env (.script f args) m
        (env.hold (.ofFunction f)) (.block ⟨f.program, f.node.body⟩) m₀
  -- Requests of a host function
  | request {env name a m a₁ m₁} :
      a.answer? m = some (a₁, m₁) → Enters env (.action name a) m env (.action name a₁) m₁
  | run {env name b next m} :
      Enters env (.action name (.run b next)) m (env.hold (.ofBlock b)) (.block b) m
  | afterRun {env name b next m r m₁} :
      Ends (env.hold (.ofBlock b)) (.block b) m r m₁ →
      Enters env (.action name (.run b next)) m env (.action name (next r)) m₁
  | runApart {env name b next m} :
      Enters env (.action name (.runApart b next)) m
        (env.hold (.ofBlock b)) (.block b) { m with ctx := m.ctx.derive }
  | afterRunApart {env name b next m r apart} :
      Ends (env.hold (.ofBlock b)) (.block b) { m with ctx := m.ctx.derive } r apart →
      Enters env (.action name (.runApart b next)) m
        env (.action name (next r)) { m with world := apart.world }
  | spawn {env name b next m} :
      Enters env (.action name (.spawn b next)) m (env.hold (.ofBlock b)) (.block b)
        ⟨m.ctx.derive, m.world.note (.taskStarted m.ctx.session)⟩
  | afterSpawn {env name b next m apart} :
      Ends (env.hold (.ofBlock b)) (.block b)
        ⟨m.ctx.derive, m.world.note (.taskStarted m.ctx.session)⟩ (.ok ()) apart →
      Enters env (.action name (.spawn b next)) m
        env (.action name next) { m with world := apart.world }
  | afterFailedSpawn {env name b next m e apart} :
      Ends (env.hold (.ofBlock b)) (.block b)
        ⟨m.ctx.derive, m.world.note (.taskStarted m.ctx.session)⟩ (.error e) apart →
      Enters env (.action name (.spawn b next)) m
        env (.action name next) { m with world := apart.world.note (.taskFailed e.message) }

/-- The second job is the first one, or a part of it, or a part of a part. -/
inductive Reaches : Env → Job → Machine → Env → Job → Machine → Prop where
  | here {env j m} : Reaches env j m env j m
  | part {env j m env₁ j₁ m₁ env' j' m'} :
      Enters env j m env₁ j₁ m₁ → Reaches env₁ j₁ m₁ env' j' m' → Reaches env j m env' j' m'

/-- The machine on which a program starts. -/
def begun (p : Linked Block) (m : Machine) : Machine :=
  m.note (.evaluating m.ctx.session p.node.stmts.length p.node.functions.length)

/-- The machine on which a task starts. -/
def taskMachine (m : Machine) : Machine :=
  ⟨m.ctx.derive, m.world.note (.taskStarted m.ctx.session)⟩

/-- A run on a context from the pool is a run on the context that the pool gives, after which it is
    given back. -/
theorem pooled_eq (env : Env) (fuel : Nat) (session : SessionId) (p : Linked Block) (w : World) :
    pooled env fuel session p w =
      (program env fuel p ⟨(w.obtain session).1, (w.obtain session).2⟩).map fun x =>
        (x.1, x.2.world.release x.2.ctx) := by
  unfold pooled
  dsimp only
  cases program env fuel p ⟨(w.obtain session).1, (w.obtain session).2⟩ <;> rfl

theorem ends_of_pooled {env : Env} {fuel : Nat} {session : SessionId} {p : Linked Block}
    {w w' : World} {r : Except EvalError Unit} (h : pooled env fuel session p w = some (r, w')) :
    ∃ m, Ends env (.block p) (begun p ⟨(w.obtain session).1, (w.obtain session).2⟩) r m ∧
      w' = m.world.release m.ctx := by
  rw [pooled_eq] at h
  obtain ⟨⟨r, m⟩, hrun, heq⟩ := Option.map_eq_some_iff.mp h
  cases heq
  exact ⟨m, .of_block hrun, rfl⟩

/-! ## What holds at every moment -/

variable {env env' : Env} {j j' : Job} {m m' : Machine}

theorem Enters.registry (h : Enters env j m env' j' m') : env'.registry = env.registry := by
  cases h <;> rfl

theorem Enters.config (h : Enters env j m env' j' m') : env'.config = env.config := by
  cases h <;> rfl

theorem Enters.upkeep {p : World → Prop} (h : Enters env j m env' j' m')
    (hp : Upkeep env.registry p) (hm : p m.world) : p m'.world := by
  cases h with
  | block | first | stmtBlock | ifTrue | ifFalse | stmtWhile | stmtFor | whileBody | forRange
  | forArray | timesBody | invokeScript | invokeNative | run | runApart => exact hm
  | rest _ he | whileNext _ _ he | timesNext _ he | afterRun he | afterRunApart he =>
    exact he.upkeep hp hm
  | call hr => exact hp.resolve rfl hr hm
  | moduleCall hr => exact hp.resolveModuleCall rfl hr hm
  | forEachBody => exact hp.write _ _ hm
  | forEachNext _ he => exact he.upkeep hp (hp.write _ _ hm)
  | body _ he => exact hp.enterCall he hm
  | request ha => exact hp.answer ha hm
  | spawn => exact hp.note _ _ hm
  | afterSpawn he => exact he.upkeep hp (hp.note _ _ hm)
  | afterFailedSpawn he => exact hp.note _ _ (he.upkeep hp (hp.note _ _ hm))

theorem Enters.every {p : Action → Prop} (h : Enters env j m env' j' m')
    (hr : env.registry.Every p) (hj : j.Every p) : j'.Every p := by
  cases h with
  | call hc => exact resolve_every hr hc
  | moduleCall hc => exact resolveModuleCall_every hr hc
  | invokeNative => exact hj _
  | request ha => exact Action.Every.answer hj ha
  | afterRun | afterRunApart => exact hj.2 _
  | afterSpawn | afterFailedSpawn => exact hj.2
  | _ => trivial

theorem Reaches.every {p : Action → Prop} (h : Reaches env j m env' j' m')
    (hr : env.registry.Every p) (hj : j.Every p) : j'.Every p := by
  induction h with
  | here => exact hj
  | part he _ ih => exact ih (he.registry ▸ hr) (he.every hr hj)

/-- What every run keeps of the world holds at every moment of a run that starts with it. -/
theorem Reaches.upkeep {p : World → Prop} (h : Reaches env j m env' j' m')
    (hp : Upkeep env.registry p) (hm : p m.world) : p m'.world := by
  induction h with
  | here => exact hm
  | part he _ ih => exact ih (he.registry ▸ hp) (he.upkeep hp hm)

end Eval

end TierScript
