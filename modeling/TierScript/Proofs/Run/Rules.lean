import TierScript.Proofs.Run.Requests
import TierScript.Run.Eval

/-!
# Evaluation by rules

The evaluator answers up to an amount of fuel. Here the same runs are described by rules that
mention no fuel, so that a property of all runs is proved by induction over the rules.

* `Job` is anything that the evaluator can be asked to run, `Job.run` is the evaluator on jobs.
* `Ends env j m r m'`: the job `j`, started on the machine `m`, ends with the result `r` and leaves
  the machine `m'`. There is one rule for each way through the evaluator.
-/

namespace TierScript

/-! ## Calls of script functions -/

namespace Machine

/-- The machine on which the body of a script function starts: a context from the pool, one call
    deeper than the caller, with the arguments as its variables. -/
def enterCall (m : Machine) (f : FnDef) (args : List Expr) : Except ArithError Unit × Machine :=
  let (callee, world) := m.world.obtain m.ctx.session
  let bound := bindArguments (Machine.lookup { m with world })
    { callee with depth := m.ctx.depth + 1 } (f.params.zip args)
  (bound.1, ⟨bound.2, world⟩)

/-- The machine of the caller after a call that failed on the machine `m`. -/
def abandonCall (m : Machine) (caller : Context) : Machine := ⟨caller, m.world.release m.ctx⟩

/-- The machine of the caller after a call whose body ended well on the machine `m`. -/
def leaveCall (m : Machine) (caller : Context) (f : FnDef) (args : List Expr) : Machine :=
  let back := copyBack f args m.ctx ⟨caller, m.world⟩ f.outs
  { back with world := back.world.release m.ctx }

end Machine

/-! ## Jobs -/

namespace Eval

open Machine

/-- What the caller of a host function makes of its result. -/
def blame (name : String) : Except Cause Unit → Except EvalError Unit
  | .ok () => .ok ()
  | .error cause => .error (.native name cause)

/-- Something that the evaluator can be asked to run. -/
inductive Job where
  | block (b : Linked Block)
  | stmts (program : ProgramId) (l : List Stmt)
  | stmt (program : ProgramId) (s : Stmt)
  | whileLoop (condition : Conditions) (body : Linked Block)
  | forLoop (dest : Term) (d s : Value) (body : Linked Block) (span : Span)
  | times (count : Nat) (body : Linked Block)
  | forEach (v : Var) (items : List Value) (body : Linked Block)
  | invoke (callable : Callable) (args : List Expr)
  | script (f : Linked FnDef) (args : List Expr)
  /-- What is left to do of the host function `name`. -/
  | action (name : String) (a : Action)

/-- Runs a job. -/
def Job.run (env : Env) (fuel : Nat) : Job → Machine → Option Ending
  | .block b, m => Eval.block env fuel b m
  | .stmts program l, m => Eval.stmts env fuel program l m
  | .stmt program s, m => Eval.stmt env fuel program s m
  | .whileLoop condition body, m => Eval.whileLoop env fuel condition body m
  | .forLoop dest d s body span, m => Eval.forLoop env fuel dest d s body span m
  | .times count body, m => Eval.times env fuel count body m
  | .forEach v items body, m => Eval.forEach env fuel v items body m
  | .invoke callable args, m => Eval.invoke env fuel callable args m
  | .script f args, m => Eval.script env fuel f args m
  | .action name a, m => (Eval.action env fuel a m).map fun e => (blame name e.1, e.2)

/-- `p` holds of every request that a job itself can make, the host functions of the registry
    apart. -/
def Job.Every (p : Action → Prop) : Job → Prop
  | .invoke callable _ => callable.Every p
  | .action _ a => a.Every p
  | _ => True

/-- The block that a statement finds on offer. -/
def following (program : ProgramId) (rest : List Stmt) : Option (Linked Block) :=
  (rest.head?.bind Stmt.block?).map fun b => ⟨program, b⟩

/-- The machine on which a statement runs that is followed by `rest`. -/
def offering (program : ProgramId) (rest : List Stmt) (m : Machine) : Machine :=
  m.modifyCtx fun c => c.offer (following program rest)

/-- The statements that are left after the first of them has ended on the machine `m`. -/
def remaining (rest : List Stmt) (m : Machine) : List Stmt :=
  if m.ctx.offerClaimed then rest.tail else rest

/-! ## The rules -/

/-- The job ends with the result and leaves the second machine. -/
inductive Ends : Env → Job → Machine → Except EvalError Unit → Machine → Prop where
  | block {env b m r m'} :
      Ends env (.stmts b.program b.node.stmts) (m.enterBlock b) r m' →
      Ends env (.block b) m r (m'.leaveBlock b)
  -- Statements in order
  | stmtsNil {env program m} : Ends env (.stmts program []) m (.ok ()) m
  | stmtsStop {env program s rest m} :
      m.ctx.isTerminated = true → Ends env (.stmts program (s :: rest)) m (.ok ()) m
  | stmtsError {env program s rest m e m'} :
      m.ctx.isTerminated = false →
      Ends env (.stmt program s) (offering program rest m) (.error e) m' →
      Ends env (.stmts program (s :: rest)) m (.error e) m'
  | stmtsNext {env program s rest m m₁ r m'} :
      m.ctx.isTerminated = false →
      Ends env (.stmt program s) (offering program rest m) (.ok ()) m₁ →
      Ends env (.stmts program (remaining rest m₁)) m₁ r m' →
      Ends env (.stmts program (s :: rest)) m r m'
  -- One statement
  | stmtBlock {env program b m r m'} :
      Ends env (.block ⟨program, b⟩) m r m' → Ends env (.stmt program (.block b)) m r m'
  | assign {env program target value span m r m'} :
      m.assign target value = (r, m') →
      Ends env (.stmt program (.assign target value span)) m r m'
  | ifError {env program condition body otherwise span m e} :
      condition.eval m.lookup = .error e →
      Ends env (.stmt program (.ifElse condition body otherwise span)) m (.error (.arith e)) m
  | ifTrue {env program condition body otherwise span m r m'} :
      condition.eval m.lookup = .ok true →
      Ends env (.block ⟨program, body⟩) m r m' →
      Ends env (.stmt program (.ifElse condition body otherwise span)) m r m'
  | ifFalse {env program condition body b span m r m'} :
      condition.eval m.lookup = .ok false →
      Ends env (.block ⟨program, b⟩) m r m' →
      Ends env (.stmt program (.ifElse condition body (some b) span)) m r m'
  | ifNone {env program condition body span m} :
      condition.eval m.lookup = .ok false →
      Ends env (.stmt program (.ifElse condition body none span)) m (.ok ()) m
  | stmtWhile {env program condition body span m r m'} :
      Ends env (.whileLoop condition ⟨program, body⟩) (m.modifyCtx Context.enterLoop) r m' →
      Ends env (.stmt program (.whileLoop condition body span)) m r
        (m'.modifyCtx Context.exitLoop)
  | forDestError {env program dest src body span m e} :
      dest.eval m.lookup = .error e →
      Ends env (.stmt program (.forLoop dest src body span)) m (.error (.arith e)) m
  | forSrcError {env program dest src body span m d e} :
      dest.eval m.lookup = .ok d → src.eval m.lookup = .error e →
      Ends env (.stmt program (.forLoop dest src body span)) m (.error (.arith e)) m
  | stmtFor {env program dest src body span m d s r m'} :
      dest.eval m.lookup = .ok d → src.eval m.lookup = .ok s →
      Ends env (.forLoop dest d s ⟨program, body⟩ span) (m.modifyCtx Context.enterLoop) r m' →
      Ends env (.stmt program (.forLoop dest src body span)) m r (m'.modifyCtx Context.exitLoop)
  | breakLoop {env program span m r m'} :
      m.breakOut span = (r, m') → Ends env (.stmt program (.breakLoop span)) m r m'
  | endCode {env program span m} :
      Ends env (.stmt program (.endCode span)) m (.ok ()) (m.modifyCtx Context.setExit)
  | callError {env program c m e m'} :
      m.resolve env program c = (.error e, m') →
      Ends env (.stmt program (.call c)) m (.error e) m'
  | call {env program c m callable m₁ r m'} :
      m.resolve env program c = (.ok callable, m₁) →
      Ends env (.invoke callable c.args) m₁ r m' →
      Ends env (.stmt program (.call c)) m r m'
  | moduleCallError {env program module c m e m'} :
      m.resolveModuleCall env program module c = (.error e, m') →
      Ends env (.stmt program (.moduleCall module c)) m (.error e) m'
  | moduleCall {env program module c m callable m₁ r m'} :
      m.resolveModuleCall env program module c = (.ok callable, m₁) →
      Ends env (.invoke callable c.args) m₁ r m' →
      Ends env (.stmt program (.moduleCall module c)) m r m'
  -- Loops
  | whileStop {env condition body m} :
      m.ctx.isTerminated = true → Ends env (.whileLoop condition body) m (.ok ()) m
  | whileError {env condition body m e} :
      m.ctx.isTerminated = false → condition.eval m.lookup = .error e →
      Ends env (.whileLoop condition body) m (.error (.arith e)) m
  | whileFalse {env condition body m} :
      m.ctx.isTerminated = false → condition.eval m.lookup = .ok false →
      Ends env (.whileLoop condition body) m (.ok ()) m
  | whileBodyError {env condition body m e m'} :
      m.ctx.isTerminated = false → condition.eval m.lookup = .ok true →
      Ends env (.block body) m (.error e) m' →
      Ends env (.whileLoop condition body) m (.error e) m'
  | whileNext {env condition body m m₁ r m'} :
      m.ctx.isTerminated = false → condition.eval m.lookup = .ok true →
      Ends env (.block body) m (.ok ()) m₁ →
      Ends env (.whileLoop condition body) m₁ r m' →
      Ends env (.whileLoop condition body) m r m'
  | forRange {env dest d s body span m first last r m'} :
      d.toInteger? = some first → s.toInteger? = some last →
      Ends env (.times (rangeCount first last) body) m r m' →
      Ends env (.forLoop dest d s body span) m r m'
  | forArray {env dest d items body span m v r m'} :
      dest.plainVar? = some v →
      Ends env (.forEach v items body) m r m' →
      Ends env (.forLoop dest d (.array items) body span) m r m'
  | forSkip {env dest d s body span m} :
      (∀ first last, d.toInteger? = some first → s.toInteger? ≠ some last) →
      (∀ v items, dest.plainVar? = some v → s ≠ .array items) →
      Ends env (.forLoop dest d s body span) m (.ok ())
        (m.note (.skippedLoop span d.typeName s.typeName))
  | timesStop {env count body m} :
      (count = 0 ∨ m.ctx.isTerminated = true) → Ends env (.times count body) m (.ok ()) m
  | timesError {env count body m e m'} :
      m.ctx.isTerminated = false → Ends env (.block body) m (.error e) m' →
      Ends env (.times (count + 1) body) m (.error e) m'
  | timesNext {env count body m m₁ r m'} :
      m.ctx.isTerminated = false → Ends env (.block body) m (.ok ()) m₁ →
      Ends env (.times count body) m₁ r m' →
      Ends env (.times (count + 1) body) m r m'
  | forEachNil {env v body m} : Ends env (.forEach v [] body) m (.ok ()) m
  | forEachStop {env v item rest body m} :
      m.ctx.isTerminated = true → Ends env (.forEach v (item :: rest) body) m (.ok ()) m
  | forEachError {env v item rest body m e m'} :
      m.ctx.isTerminated = false → Ends env (.block body) (m.write v item) (.error e) m' →
      Ends env (.forEach v (item :: rest) body) m (.error e) m'
  | forEachNext {env v item rest body m m₁ r m'} :
      m.ctx.isTerminated = false → Ends env (.block body) (m.write v item) (.ok ()) m₁ →
      Ends env (.forEach v rest body) m₁ r m' →
      Ends env (.forEach v (item :: rest) body) m r m'
  -- Calls
  | invokeScript {env f args m r m'} :
      Ends env (.script f args) m r m' → Ends env (.invoke (.script f) args) m r m'
  | invokeNative {env name arity body args m r m'} :
      Ends env (.action name (body args)) m r m' →
      Ends env (.invoke (.native name arity body) args) m r m'
  | tooDeep {env f args m} :
      env.config.maxCallDepth < m.ctx.depth + 1 →
      Ends env (.script f args) m (.error (.callDepthExceeded env.config.maxCallDepth)) m
  | badArgument {env f args m e m₀} :
      m.ctx.depth + 1 ≤ env.config.maxCallDepth →
      m.enterCall f.node args = (.error e, m₀) →
      Ends env (.script f args) m (.error (.arith e)) (m₀.abandonCall m.ctx)
  | bodyError {env f args m m₀ e m₁} :
      m.ctx.depth + 1 ≤ env.config.maxCallDepth →
      m.enterCall f.node args = (.ok (), m₀) →
      Ends (env.hold (.ofFunction f)) (.block ⟨f.program, f.node.body⟩) m₀ (.error e) m₁ →
      Ends env (.script f args) m (.error e) (m₁.abandonCall m.ctx)
  | returned {env f args m m₀ m₁} :
      m.ctx.depth + 1 ≤ env.config.maxCallDepth →
      m.enterCall f.node args = (.ok (), m₀) →
      Ends (env.hold (.ofFunction f)) (.block ⟨f.program, f.node.body⟩) m₀ (.ok ()) m₁ →
      Ends env (.script f args) m (.ok ()) (m₁.leaveCall m.ctx f.node args)
  -- Requests of a host function
  | done {env name m} : Ends env (.action name .done) m (.ok ()) m
  | fail {env name cause m} :
      Ends env (.action name (.fail cause)) m (.error (.native name cause)) m
  | request {env name a m a₁ m₁ r m'} :
      a.answer? m = some (a₁, m₁) → Ends env (.action name a₁) m₁ r m' →
      Ends env (.action name a) m r m'
  | run {env name b next m r₁ m₁ r m'} :
      Ends (env.hold (.ofBlock b)) (.block b) m r₁ m₁ →
      Ends env (.action name (next r₁)) m₁ r m' →
      Ends env (.action name (.run b next)) m r m'
  | runApart {env name b next m r₁ apart r m'} :
      Ends (env.hold (.ofBlock b)) (.block b) { m with ctx := m.ctx.derive } r₁ apart →
      Ends env (.action name (next r₁)) { m with world := apart.world } r m' →
      Ends env (.action name (.runApart b next)) m r m'
  | spawnOk {env name b next m apart r m'} :
      Ends (env.hold (.ofBlock b)) (.block b)
        ⟨m.ctx.derive, m.world.note (.taskStarted m.ctx.session)⟩ (.ok ()) apart →
      Ends env (.action name next) { m with world := apart.world } r m' →
      Ends env (.action name (.spawn b next)) m r m'
  | spawnError {env name b next m e apart r m'} :
      Ends (env.hold (.ofBlock b)) (.block b)
        ⟨m.ctx.derive, m.world.note (.taskStarted m.ctx.session)⟩ (.error e) apart →
      Ends env (.action name next)
        { m with world := apart.world.note (.taskFailed e.message) } r m' →
      Ends env (.action name (.spawn b next)) m r m'

end Eval

end TierScript
