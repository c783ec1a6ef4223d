import TierScript.Run.Machine

/-!
# Evaluation

The functions below run blocks, statements and calls on a machine. They take an amount of fuel and
pass on one less, so each of them is defined by recursion on the fuel; without fuel there is no
result at all, which is different from an error. An error leaves the machine as it was when the
error occurred, except that everything that was entered is left again.

* Statements run in order until the context terminates. A block that follows a statement is offered
  to it, and passed over if the statement claims it.
* `break` and `endcode` set marks on the context, which every block and loop looks at before it goes
  on.
* A script function runs on a context of its own from the pool. Its arguments are evaluated by the
  caller, and its marked parameters are copied back to the caller if it ends without an error.

The name in parentheses that follows a description, here and in the other modules, is the function
or the type of the interpreter that the definition models.
-/

namespace TierScript

/-- How a run ends, with the machine it leaves (`EvalResult`). -/
abbrev Ending := Except EvalError Unit × Machine

namespace Machine

/-- Enters a block (in `exec_block`). -/
def enterBlock (m : Machine) (b : Linked Block) : Machine :=
  m.modifyCtx fun c => (c.pushFunctions b.program b.node.functions).pushOffer

/-- Leaves a block (in `exec_block`). -/
def leaveBlock (m : Machine) (b : Linked Block) : Machine :=
  m.modifyCtx fun c => c.popOffer.popFunctions b.node.functions

/-- Runs an assignment (in `exec_stmt`). -/
def assign (m : Machine) (target : Var) (value : Expr) : Ending :=
  match value.eval m.lookup with
  | .ok v => (.ok (), m.write target v)
  | .error e => (.error (.arith e), m)

/-- Breaks the innermost loop (in `exec_stmt`). -/
def breakOut (m : Machine) (span : Span) : Ending :=
  match m.ctx.breakLoop with
  | (true, ctx) => (.ok (), { m with ctx })
  | (false, _) => (.error (.breakOutsideLoop span), m)

/-- How often a loop from `first` to `last` runs (in `run_for`). -/
def rangeCount (first last : Int64) : Nat := (last.toInt - first.toInt + 1).toNat

/-- Binds the parameters of a script function to the values of the arguments, as seen by the caller;
    stops at the first argument without a value (in `call_user_function`). -/
def bindArguments (lookup : Var → Value) (callee : Context) :
    List (String × Expr) → Except ArithError Unit × Context
  | [] => (.ok (), callee)
  | (param, arg) :: rest =>
    match arg.eval lookup with
    | .ok v => bindArguments lookup (callee.setLocal param v) rest
    | .error e => (.error e, callee)

/-- Copies marked parameters back to those arguments that are variables (in
    `call_user_function`). -/
def copyBack (f : FnDef) (args : List Expr) (callee : Context) (m : Machine) : List Nat → Machine
  | [] => m
  | position :: rest =>
    match args[position]?.bind Expr.bareVar?, f.params[position]? with
    | some target, some param =>
      copyBack f args callee (m.write target (callee.locals.get param)) rest
    | _, _ => copyBack f args callee m rest

end Machine

namespace Eval

open Machine

mutual

/-- Runs a block on the current context (`exec_block`). -/
def block (env : Env) : Nat → Linked Block → Machine → Option Ending
  | 0, _, _ => none
  | fuel + 1, b, m =>
    match stmts env fuel b.program b.node.stmts (m.enterBlock b) with
    | none => none
    | some (result, m) => some (result, m.leaveBlock b)

/-- Runs statements until the context terminates (`run_statements`). -/
def stmts (env : Env) : Nat → ProgramId → List Stmt → Machine → Option Ending
  | 0, _, _, _ => none
  | _ + 1, _, [], m => some (.ok (), m)
  | fuel + 1, program, s :: rest, m =>
    if m.ctx.isTerminated then some (.ok (), m)
    else
      let following := (rest.head?.bind Stmt.block?).map fun b => ⟨program, b⟩
      match stmt env fuel program s (m.modifyCtx fun c => c.offer following) with
      | none => none
      | some (.error e, m) => some (.error e, m)
      | some (.ok (), m) =>
        stmts env fuel program (if m.ctx.offerClaimed then rest.tail else rest) m

/-- Runs one statement (`exec_stmt`). -/
def stmt (env : Env) : Nat → ProgramId → Stmt → Machine → Option Ending
  | 0, _, _, _ => none
  | fuel + 1, program, s, m =>
    match s with
    | .block b => block env fuel ⟨program, b⟩ m
    | .assign target value _ => some (m.assign target value)
    | .ifElse condition body otherwise _ =>
      match condition.eval m.lookup with
      | .error e => some (.error (.arith e), m)
      | .ok true => block env fuel ⟨program, body⟩ m
      | .ok false =>
        match otherwise with
        | some b => block env fuel ⟨program, b⟩ m
        | none => some (.ok (), m)
    | .whileLoop condition body _ =>
      match whileLoop env fuel condition ⟨program, body⟩ (m.modifyCtx Context.enterLoop) with
      | none => none
      | some (result, m) => some (result, m.modifyCtx Context.exitLoop)
    | .forLoop dest src body span =>
      match dest.eval m.lookup with
      | .error e => some (.error (.arith e), m)
      | .ok d =>
        match src.eval m.lookup with
        | .error e => some (.error (.arith e), m)
        | .ok s =>
          match forLoop env fuel dest d s ⟨program, body⟩ span (m.modifyCtx Context.enterLoop) with
          | none => none
          | some (result, m) => some (result, m.modifyCtx Context.exitLoop)
    | .breakLoop span => some (m.breakOut span)
    | .endCode _ => some (.ok (), m.modifyCtx Context.setExit)
    | .call c =>
      match m.resolve env program c with
      | (.error e, m) => some (.error e, m)
      | (.ok callable, m) => invoke env fuel callable c.args m
    | .moduleCall module c =>
      match m.resolveModuleCall env program module c with
      | (.error e, m) => some (.error e, m)
      | (.ok callable, m) => invoke env fuel callable c.args m

/-- Runs the body of a loop as long as its condition holds (`run_while`). -/
def whileLoop (env : Env) : Nat → Conditions → Linked Block → Machine → Option Ending
  | 0, _, _, _ => none
  | fuel + 1, condition, body, m =>
    if m.ctx.isTerminated then some (.ok (), m)
    else
      match condition.eval m.lookup with
      | .error e => some (.error (.arith e), m)
      | .ok false => some (.ok (), m)
      | .ok true =>
        match block env fuel body m with
        | none => none
        | some (.error e, m) => some (.error e, m)
        | some (.ok (), m) => whileLoop env fuel condition body m

/-- Runs the body of a loop once for every integer of a range or every item of an array (`run_for`).
    Values that are neither are skipped with a warning. -/
def forLoop (env : Env) :
    Nat → Term → Value → Value → Linked Block → Span → Machine → Option Ending
  | 0, _, _, _, _, _, _ => none
  | fuel + 1, dest, d, s, body, span, m =>
    match d.toInteger?, s.toInteger? with
    | some first, some last => times env fuel (rangeCount first last) body m
    | _, _ =>
      match dest.plainVar?, s with
      | some v, .array items => forEach env fuel v items body m
      | _, _ => some (.ok (), m.note (.skippedLoop span d.typeName s.typeName))

/-- Runs the body of a loop a number of times (the loop of `run_for`). -/
def times (env : Env) : Nat → Nat → Linked Block → Machine → Option Ending
  | 0, _, _, _ => none
  | fuel + 1, count, body, m =>
    if count = 0 ∨ m.ctx.isTerminated then some (.ok (), m)
    else
      match block env fuel body m with
      | none => none
      | some (.error e, m) => some (.error e, m)
      | some (.ok (), m) => times env fuel (count - 1) body m

/-- Runs the body of a loop for every item, with the variable set to it (the loop of `run_for`). -/
def forEach (env : Env) : Nat → Var → List Value → Linked Block → Machine → Option Ending
  | 0, _, _, _, _ => none
  | _ + 1, _, [], _, m => some (.ok (), m)
  | fuel + 1, v, item :: rest, body, m =>
    if m.ctx.isTerminated then some (.ok (), m)
    else
      match block env fuel body (m.write v item) with
      | none => none
      | some (.error e, m) => some (.error e, m)
      | some (.ok (), m) => forEach env fuel v rest body m

/-- Calls a callable (`invoke`). What a function of the host fails with becomes the cause of an
    error. -/
def invoke (env : Env) : Nat → Callable → List Expr → Machine → Option Ending
  | 0, _, _, _ => none
  | fuel + 1, callable, args, m =>
    match callable with
    | .script f => script env fuel f args m
    | .native name _ body =>
      match action env fuel (body args) m with
      | none => none
      | some (.ok (), m) => some (.ok (), m)
      | some (.error cause, m) => some (.error (.native name cause), m)

/-- Calls a script function (`call_user_function`). -/
def script (env : Env) : Nat → Linked FnDef → List Expr → Machine → Option Ending
  | 0, _, _, _ => none
  | fuel + 1, f, args, m =>
    let depth := m.ctx.depth + 1
    if env.config.maxCallDepth < depth then
      some (.error (.callDepthExceeded env.config.maxCallDepth), m)
    else
      let (callee, world) := m.world.obtain m.ctx.session
      let caller : Machine := { m with world }
      match bindArguments caller.lookup { callee with depth } (f.node.params.zip args) with
      | (.error e, callee) =>
        some (.error (.arith e), { caller with world := world.release callee })
      | (.ok (), callee) =>
        match block (env.hold (.ofFunction f)) fuel ⟨f.program, f.node.body⟩
            ⟨callee, world⟩ with
        | none => none
        | some (.error e, ⟨callee, world⟩) =>
          some (.error e, ⟨caller.ctx, world.release callee⟩)
        | some (.ok (), ⟨callee, world⟩) =>
          let back := copyBack f.node args callee ⟨caller.ctx, world⟩ f.node.outs
          some (.ok (), { back with world := back.world.release callee })

/-- Does what a function of the host asks for (the body of a `NativeFn`). -/
def action (env : Env) : Nat → Action → Machine → Option (Except Cause Unit × Machine)
  | 0, _, _ => none
  | fuel + 1, a, m =>
    match a with
    | .done => some (.ok (), m)
    | .fail cause => some (.error cause, m)
    | .evaluate e next => action env fuel (next (e.eval m.lookup)) m
    | .write v value next => action env fuel next (m.write v value)
    | .look next => action env fuel (next m.ctx) m
    | .claim next =>
      let (b, ctx) := m.ctx.claim
      action env fuel (next b) { m with ctx }
    | .run b next =>
      match block (env.hold (.ofBlock b)) fuel b m with
      | none => none
      | some (result, m) => action env fuel (next result) m
    | .runApart b next =>
      match block (env.hold (.ofBlock b)) fuel b { m with ctx := m.ctx.derive } with
      | none => none
      | some (result, apart) => action env fuel (next result) { m with world := apart.world }
    | .spawn b next =>
      match task env fuel b m with
      | none => none
      | some m => action env fuel next m
    | .enterLoop next => action env fuel next (m.modifyCtx Context.enterLoop)
    | .exitLoop next => action env fuel next (m.modifyCtx Context.exitLoop)
    | .breakLoop next =>
      let (broken, ctx) := m.ctx.breakLoop
      action env fuel (next broken) { m with ctx }
    | .setExit next => action env fuel next (m.modifyCtx Context.setExit)
    | .clearExit next => action env fuel next (m.modifyCtx Context.clearExit)
    | .print line next => action env fuel next { m with world := m.world.print line }
    | .keep b next => action env fuel next { m with world := { m.world with drawer := b } }
    | .kept next => action env fuel (next m.world.drawer) m
    | .note e next => action env fuel next (m.note e)

/-- Runs a block as a task to its end, on a context of its own (`spawn`). Its errors go to the
    log. -/
def task (env : Env) : Nat → Linked Block → Machine → Option Machine
  | 0, _, _ => none
  | fuel + 1, b, m =>
    let started := m.note (.taskStarted m.ctx.session)
    match block (env.hold (.ofBlock b)) fuel b { started with ctx := m.ctx.derive } with
    | none => none
    | some (.ok (), apart) => some { m with world := apart.world }
    | some (.error e, apart) => some { m with world := apart.world.note (.taskFailed e.message) }

end

/-- Runs a program on the current context (`eval_with`). -/
def program (env : Env) (fuel : Nat) (p : Linked Block) (m : Machine) : Option Ending :=
  block env fuel p
    (m.note (.evaluating m.ctx.session p.node.stmts.length p.node.functions.length))

/-- Runs a program on a context from the pool, which is given back afterwards (`eval`). -/
def pooled (env : Env) (fuel : Nat) (session : SessionId) (p : Linked Block) (world : World) :
    Option (Except EvalError Unit × World) :=
  let (ctx, world) := world.obtain session
  match program env fuel p ⟨ctx, world⟩ with
  | none => none
  | some (result, m) => some (result, m.world.release m.ctx)

end Eval

end TierScript
