import TierScript.Proofs.Run.Rules

/-!
# The moves of a run

The evaluator does few things with a job. It ends the job at once, or runs another job as a part of
it. When that part has ended, it ends the job, or runs a second part; then the job ends as the
second part does.

* `Job.start` and `Job.resume` are these moves, as functions of the job.
* `run_succ`: the evaluator makes these moves and no others. So its recursive calls are the parts
  that the moves name.
-/

namespace TierScript

namespace Eval

open Machine

/-- What is done next with a job. -/
inductive Move where
  /-- It ends. -/
  | stop (e : Ending)
  /-- Another job is run as a part of it. -/
  | part (env : Env) (j : Job) (m : Machine)

/-- Makes the move, with that much fuel for the part. -/
def Move.run (n : Nat) : Move → Option Ending
  | .stop e => some e
  | .part env j m => j.run env n m

/-- The first move with a call, once it is known what is called. -/
def startCall (env : Env) (c : Call) : Except EvalError Callable × Machine → Move
  | (.error e, m) => .stop (.error e, m)
  | (.ok callable, m) => .part env (.invoke callable c.args) m

/-- The first move with a conditional, once it is known whether the condition holds. -/
def startBranch (env : Env) (program : ProgramId) (m : Machine) (body : Block)
    (otherwise : Option Block) : Except ArithError Bool → Move
  | .error e => .stop (.error (.arith e), m)
  | .ok true => .part env (.block ⟨program, body⟩) m
  | .ok false =>
    match otherwise with
    | some b => .part env (.block ⟨program, b⟩) m
    | none => .stop (.ok (), m)

/-- The first move with a `for` loop, once the values are known that it runs from and to. -/
def startFor (env : Env) (m : Machine) (dest : Term) (body : Linked Block) (span : Span) :
    Except ArithError Value → Except ArithError Value → Move
  | .error e, _ => .stop (.error (.arith e), m)
  | .ok _, .error e => .stop (.error (.arith e), m)
  | .ok d, .ok s => .part env (.forLoop dest d s body span) (m.modifyCtx Context.enterLoop)

/-- The first move with a statement. -/
def startStmt (env : Env) (program : ProgramId) (m : Machine) : Stmt → Move
  | .block b => .part env (.block ⟨program, b⟩) m
  | .assign target value _ => .stop (m.assign target value)
  | .ifElse condition body otherwise _ =>
    startBranch env program m body otherwise (condition.eval m.lookup)
  | .whileLoop condition body _ =>
    .part env (.whileLoop condition ⟨program, body⟩) (m.modifyCtx Context.enterLoop)
  | .forLoop dest src body span =>
    startFor env m dest ⟨program, body⟩ span (dest.eval m.lookup) (src.eval m.lookup)
  | .breakLoop span => .stop (m.breakOut span)
  | .endCode _ => .stop (.ok (), m.modifyCtx Context.setExit)
  | .call c => startCall env c (m.resolve env program c)
  | .moduleCall module c => startCall env c (m.resolveModuleCall env program module c)

/-- The first move with the rounds of a `for` loop that does not run over a range. -/
def startItems (env : Env) (m : Machine) (dest : Term) (d s : Value) (body : Linked Block)
    (span : Span) : Move :=
  match dest.plainVar?, s with
  | some v, .array items => .part env (.forEach v items body) m
  | _, _ => .stop (.ok (), m.note (.skippedLoop span d.typeName s.typeName))

/-- The first move with what is left of a host function. -/
def startAction (env : Env) (name : String) (m : Machine) (a : Action) : Move :=
  match a.answer? m with
  | some (a₁, m₁) => .part env (.action name a₁) m₁
  | none =>
    match a with
    | .fail cause => .stop (.error (.native name cause), m)
    | .run b _ => .part (env.hold (.ofBlock b)) (.block b) m
    | .runApart b _ => .part (env.hold (.ofBlock b)) (.block b) { m with ctx := m.ctx.derive }
    | .spawn b _ =>
      .part (env.hold (.ofBlock b)) (.block b)
        ⟨m.ctx.derive, m.world.note (.taskStarted m.ctx.session)⟩
    | _ => .stop (.ok (), m)

/-- The first move with a job. -/
def Job.start (env : Env) (m : Machine) : Job → Move
  | .block b => .part env (.stmts b.program b.node.stmts) (m.enterBlock b)
  | .stmts _ [] => .stop (.ok (), m)
  | .stmts program (s :: rest) =>
    if m.ctx.isTerminated then .stop (.ok (), m)
    else .part env (.stmt program s) (offering program rest m)
  | .stmt program s => startStmt env program m s
  | .whileLoop condition body =>
    if m.ctx.isTerminated then .stop (.ok (), m)
    else
      match condition.eval m.lookup with
      | .error e => .stop (.error (.arith e), m)
      | .ok false => .stop (.ok (), m)
      | .ok true => .part env (.block body) m
  | .forLoop dest d s body span =>
    match d.toInteger?, s.toInteger? with
    | some first, some last => .part env (.times (rangeCount first last) body) m
    | _, _ => startItems env m dest d s body span
  | .times count body =>
    if count = 0 ∨ m.ctx.isTerminated then .stop (.ok (), m) else .part env (.block body) m
  | .forEach _ [] _ => .stop (.ok (), m)
  | .forEach v (item :: _) body =>
    if m.ctx.isTerminated then .stop (.ok (), m) else .part env (.block body) (m.write v item)
  | .invoke (.script f) args => .part env (.script f args) m
  | .invoke (.native name _ body) args => .part env (.action name (body args)) m
  | .script f args =>
    if env.config.maxCallDepth < m.ctx.depth + 1 then
      .stop (.error (.callDepthExceeded env.config.maxCallDepth), m)
    else
      match m.enterCall f.node args with
      | (.error e, m₀) => .stop (.error (.arith e), m₀.abandonCall m.ctx)
      | (.ok (), m₀) => .part (env.hold (.ofFunction f)) (.block ⟨f.program, f.node.body⟩) m₀
  | .action name a => startAction env name m a

theorem Job.start_forLoop (env : Env) (m : Machine) (dest : Term) (d s : Value)
    (body : Linked Block) (span : Span) :
    (Job.forLoop dest d s body span).start env m =
      match d.toInteger?, s.toInteger? with
      | some first, some last => .part env (.times (rangeCount first last) body) m
      | _, _ => startItems env m dest d s body span := rfl

/-- The move with a job whose first part has ended. -/
def Job.resume (env : Env) (m : Machine) : Job → Ending → Move
  | .block b, (r, m') => .stop (r, m'.leaveBlock b)
  | .stmts program (_ :: rest), (.ok (), m') => .part env (.stmts program (remaining rest m')) m'
  | .stmt _ (.whileLoop ..), (r, m') => .stop (r, m'.modifyCtx Context.exitLoop)
  | .stmt _ (.forLoop ..), (r, m') => .stop (r, m'.modifyCtx Context.exitLoop)
  | .whileLoop condition body, (.ok (), m') => .part env (.whileLoop condition body) m'
  | .times count body, (.ok (), m') => .part env (.times (count - 1) body) m'
  | .forEach v (_ :: rest) body, (.ok (), m') => .part env (.forEach v rest body) m'
  | .script _ _, (.error e, m') => .stop (.error e, m'.abandonCall m.ctx)
  | .script f args, (.ok (), m') => .stop (.ok (), m'.leaveCall m.ctx f.node args)
  | .action name (.run _ next), (r, m') => .part env (.action name (next r)) m'
  | .action name (.runApart _ next), (r, m') =>
    .part env (.action name (next r)) { m with world := m'.world }
  | .action name (.spawn _ next), (.ok (), m') =>
    .part env (.action name next) { m with world := m'.world }
  | .action name (.spawn _ next), (.error e, m') =>
    .part env (.action name next) { m with world := m'.world.note (.taskFailed e.message) }
  | _, e => .stop e

/-- How much less fuel than usual a part of a job is given: to start a task takes one unit. -/
def Job.wait : Job → Job → Nat
  | .action _ (.spawn ..), .block _ => 1
  | _, _ => 0

/-! ## The evaluator makes these moves -/

section Succ

variable (env : Env) (n : Nat) (m : Machine)

/-- A part whose ending is that of the job. -/
theorem eq_bind_stop (o : Option Ending) : o = o.bind fun e => (Move.stop e).run n := by
  cases o <;> rfl

@[simp] theorem run_zero (j : Job) : j.run env 0 m = none := by
  cases j <;> simp [Job.run, block, stmts, stmt, whileLoop, forLoop, times, forEach, invoke, script,
    action]

theorem action_request {a a₁ : Action} {m m₁ : Machine} (h : a.answer? m = some (a₁, m₁)) :
    action env (n + 1) a m = action env n a₁ m₁ := by
  cases a with
  | done | fail | run | runApart | spawn => cases h
  | _ => cases h; rw [action.eq_def]

theorem script_succ (f : Linked FnDef) (args : List Expr) :
    script env (n + 1) f args m =
      if env.config.maxCallDepth < m.ctx.depth + 1 then
        some (.error (.callDepthExceeded env.config.maxCallDepth), m)
      else
        match m.enterCall f.node args with
        | (.error e, m₀) => some (.error (.arith e), m₀.abandonCall m.ctx)
        | (.ok (), m₀) =>
          match block (env.hold (.ofFunction f)) n ⟨f.program, f.node.body⟩ m₀ with
          | none => none
          | some (.error e, m₁) => some (.error e, m₁.abandonCall m.ctx)
          | some (.ok (), m₁) => some (.ok (), m₁.leaveCall m.ctx f.node args) := by
  rw [script]
  dsimp only
  split
  · rfl
  · unfold enterCall
    dsimp only
    split
    · next hb => rw [hb]; rfl
    · next hb =>
      rw [hb]
      dsimp only
      split
      · next heq => rw [heq]
      · next heq => rw [heq]; rfl
      · next heq => rw [heq]; rfl

/-- What comes of a job, made of what comes of its parts. -/
def Job.unfold (j : Job) : Option Ending :=
  match j.start env m with
  | .stop e => some e
  | .part env₁ j₁ m₁ =>
    (j₁.run env₁ (n - j.wait j₁) m₁).bind fun e => (j.resume env m e).run n

theorem run_stmts (program : ProgramId) (l : List Stmt) :
    Job.run env (n + 1) (.stmts program l) m = (Job.stmts program l).unfold env n m := by
  cases l with
  | nil => rw [Job.run, stmts]; rfl
  | cons s rest =>
    rw [Job.run, stmts, Job.unfold, Job.start]
    split
    · rfl
    · dsimp only [Job.run, Job.wait, offering, following, Nat.sub_zero]
      rcases stmt env n program s _ with _ | ⟨_ | _, m₁⟩ <;> rfl

theorem run_call (program : ProgramId) (c : Call) (p : Except EvalError Callable × Machine)
    (s : Stmt) (hs : ∀ e, Job.resume env m (.stmt program s) e = .stop e) :
    (match p with
      | (.error e, m) => some (.error e, m)
      | (.ok callable, m) => invoke env n callable c.args m) =
    match startCall env c p with
    | .stop e => some e
    | .part env₁ j₁ m₁ =>
      (j₁.run env₁ n m₁).bind fun e => (Job.resume env m (.stmt program s) e).run n := by
  obtain ⟨_ | callable, m₁⟩ := p
  · rfl
  · simp only [hs]
    exact eq_bind_stop n _

theorem run_stmt (program : ProgramId) (s : Stmt) :
    Job.run env (n + 1) (.stmt program s) m = (Job.stmt program s).unfold env n m := by
  rw [Job.run, stmt.eq_def, Job.unfold, Job.start]
  cases s with
  | block b => exact eq_bind_stop n _
  | assign target value span => rfl
  | ifElse condition body otherwise span =>
    dsimp only [startStmt]
    rcases condition.eval m.lookup with e | _ | _
    · rfl
    · cases otherwise with
      | none => rfl
      | some b => exact eq_bind_stop n _
    · exact eq_bind_stop n _
  | whileLoop condition body span =>
    dsimp only [startStmt, Job.run, Job.wait]
    rcases whileLoop env n condition ⟨program, body⟩ _ with _ | ⟨_, m₁⟩ <;> rfl
  | forLoop dest src body span =>
    dsimp only [startStmt]
    rcases dest.eval m.lookup with e | d
    · rfl
    rcases src.eval m.lookup with e | v
    · rfl
    dsimp only [startFor, Job.run, Job.wait]
    rcases forLoop env n dest d v ⟨program, body⟩ span _ with _ | ⟨_, m₁⟩ <;> rfl
  | breakLoop span => rfl
  | endCode span => rfl
  | call c => exact run_call env n m program c _ _ fun _ => rfl
  | moduleCall module c => exact run_call env n m program c _ _ fun _ => rfl

theorem run_whileLoop (condition : Conditions) (body : Linked Block) :
    Job.run env (n + 1) (.whileLoop condition body) m =
      (Job.whileLoop condition body).unfold env n m := by
  rw [Job.run, whileLoop, Job.unfold, Job.start]
  split
  · rfl
  · rcases condition.eval m.lookup with e | _ | _
    · rfl
    · rfl
    · dsimp only [Job.run, Job.wait]
      rcases block env n body m with _ | ⟨_ | _, m₁⟩ <;> rfl

theorem run_items (dest : Term) (d s : Value) (body : Linked Block) (span : Span) :
    (match dest.plainVar?, s with
      | some v, .array items => forEach env n v items body m
      | _, _ => some (.ok (), m.note (.skippedLoop span d.typeName s.typeName))) =
    match startItems env m dest d s body span with
    | .stop e => some e
    | .part env₁ j₁ m₁ => (j₁.run env₁ n m₁).bind fun e => (Move.stop e).run n := by
  unfold startItems
  cases dest.plainVar? with
  | none => rfl
  | some v =>
    cases s with
    | array items => exact eq_bind_stop n _
    | _ => rfl

theorem run_forLoop (dest : Term) (d s : Value) (body : Linked Block) (span : Span) :
    Job.run env (n + 1) (.forLoop dest d s body span) m =
      (Job.forLoop dest d s body span).unfold env n m := by
  rw [Job.run, forLoop.eq_def, Job.unfold, Job.start_forLoop]
  dsimp only
  rcases d.toInteger? with _ | first
  · exact run_items env n m dest d s body span
  rcases s.toInteger? with _ | last
  · exact run_items env n m dest d s body span
  · exact eq_bind_stop n _

theorem run_times (count : Nat) (body : Linked Block) :
    Job.run env (n + 1) (.times count body) m = (Job.times count body).unfold env n m := by
  rw [Job.run, times, Job.unfold, Job.start]
  split
  · rfl
  · dsimp only [Job.run, Job.wait]
    rcases block env n body m with _ | ⟨_ | _, m₁⟩ <;> rfl

theorem run_forEach (v : Var) (items : List Value) (body : Linked Block) :
    Job.run env (n + 1) (.forEach v items body) m =
      (Job.forEach v items body).unfold env n m := by
  cases items with
  | nil => rw [Job.run, forEach]; rfl
  | cons item rest =>
    rw [Job.run, forEach, Job.unfold, Job.start]
    split
    · rfl
    · dsimp only [Job.run, Job.wait]
      rcases block env n body (m.write v item) with _ | ⟨_ | _, m₁⟩ <;> rfl

theorem run_invoke (callable : Callable) (args : List Expr) :
    Job.run env (n + 1) (.invoke callable args) m = (Job.invoke callable args).unfold env n m := by
  rw [Job.run, invoke.eq_def, Job.unfold]
  cases callable with
  | script f => exact eq_bind_stop n _
  | native name arity body =>
    dsimp only [Job.start, Job.run, Job.wait]
    rcases action env n (body args) m with _ | ⟨_ | _, m₁⟩ <;> rfl

theorem run_script (f : Linked FnDef) (args : List Expr) :
    Job.run env (n + 1) (.script f args) m = (Job.script f args).unfold env n m := by
  rw [Job.run, script_succ, Job.unfold, Job.start]
  split
  · rfl
  · rcases m.enterCall f.node args with ⟨_ | _, m₀⟩
    · rfl
    · dsimp only [Job.run, Job.wait]
      rcases block _ n _ m₀ with _ | ⟨_ | _, m₁⟩ <;> rfl

theorem run_action (name : String) (a : Action) :
    Job.run env (n + 1) (.action name a) m = (Job.action name a).unfold env n m := by
  rw [Job.run, Job.unfold, Job.start, startAction.eq_def]
  cases ha : a.answer? m with
  | some p =>
    rw [action_request env n ha]
    cases a with
    | done | fail | run | runApart | spawn => cases ha
    | _ => exact eq_bind_stop n _
  | none =>
    cases a with
    | done => rw [action.eq_def]; rfl
    | fail cause => rw [action.eq_def]; rfl
    | run b next =>
      rw [action.eq_def]
      dsimp only [Job.run, Job.wait]
      rcases block _ n b m with _ | ⟨_, m₁⟩ <;> rfl
    | runApart b next =>
      rw [action.eq_def]
      dsimp only [Job.run, Job.wait]
      rcases block _ n b _ with _ | ⟨_, m₁⟩ <;> rfl
    | spawn b next =>
      rw [action.eq_def]
      dsimp only
      cases n with
      | zero => rw [task.eq_def]; rfl
      | succ k =>
        rw [task.eq_def]
        dsimp only [Job.run, Job.wait, Machine.note, Nat.add_one_sub_one]
        rcases block _ k b _ with _ | ⟨_ | _, apart⟩ <;> rfl
    | _ => cases ha

end Succ

/-- With one more unit of fuel than its parts have, the evaluator makes the moves of a job. -/
theorem run_succ (env : Env) (n : Nat) (j : Job) (m : Machine) :
    j.run env (n + 1) m = j.unfold env n m := by
  cases j with
  | block b =>
    rw [Job.run, block, Job.unfold]
    dsimp only [Job.start, Job.run, Job.wait]
    rcases stmts env n b.program b.node.stmts (m.enterBlock b) with _ | ⟨_, m₁⟩ <;> rfl
  | stmts program l => exact run_stmts env n m program l
  | stmt program s => exact run_stmt env n m program s
  | whileLoop condition body => exact run_whileLoop env n m condition body
  | forLoop dest d s body span => exact run_forLoop env n m dest d s body span
  | times count body => exact run_times env n m count body
  | forEach v items body => exact run_forEach env n m v items body
  | invoke callable args => exact run_invoke env n m callable args
  | script f args => exact run_script env n m f args
  | action name a => exact run_action env n m name a

end Eval

end TierScript
