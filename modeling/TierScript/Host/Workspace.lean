import TierScript.Host.Named
import TierScript.Host.Toolbox
import TierScript.Program.Calls
import TierScript.Program.Parser
import TierScript.Run.Eval

/-!
# Workspaces

A workspace holds named interpreters, programs and contexts over one world. Clones of an interpreter
share its registry and its pool. A registry can only be changed while one interpreter alone holds
it, and it goes when no interpreter holds it any more.

Every change of a registry, and every new registry, takes the next number as its generation.
-/

namespace TierScript

/-- An interpreter: its session, its configuration, and the numbers of its registry and its pool. -/
structure Interpreter where
  session : SessionId
  config : Config
  registry : Nat
  pool : Nat
  deriving DecidableEq, Repr, Inhabited

/-- Named interpreters, programs and contexts over one world. -/
structure Workspace where
  world : World := {}
  interpreters : Named Interpreter := []
  programs : Named (Linked Block) := []
  contexts : Named Context := []
  registries : List (Nat × Registry) := []
  pools : List (Nat × Pool) := []
  /-- The next number for a program, a registry, a pool or a generation. -/
  fresh : Nat := 1
  deriving Inhabited

namespace Workspace

/-- The fuel of an evaluation. No evaluation that ends uses it up. -/
def fuel : Nat := 2 ^ 62

/-! ## Registries and pools -/

/-- The registry of an interpreter. -/
def registry (ws : Workspace) (i : Interpreter) : Registry :=
  (ws.registries.lookup i.registry).getD default

/-- The pool of an interpreter. -/
def pool (ws : Workspace) (i : Interpreter) : Pool := (ws.pools.lookup i.pool).getD default

/-- Replaces the registry of an interpreter. -/
def setRegistry (ws : Workspace) (i : Interpreter) (r : Registry) : Workspace :=
  { ws with
    registries := ws.registries.map fun e => if e.1 = i.registry then (e.1, r) else e }

/-- Replaces the pool of an interpreter. -/
def setPool (ws : Workspace) (i : Interpreter) (p : Pool) : Workspace :=
  { ws with pools := ws.pools.map fun e => if e.1 = i.pool then (e.1, p) else e }

/-- Forgets the registries that no interpreter holds. -/
def sweep (ws : Workspace) : Workspace :=
  { ws with
    registries := ws.registries.filter fun e => ws.interpreters.any fun i => i.2.registry == e.1 }

/-- Whether more than one interpreter holds the registry (in `registry_mut`). -/
def isShared (ws : Workspace) (i : Interpreter) : Bool :=
  1 < (ws.interpreters.filter fun other => other.2.registry == i.registry).length

/-! ## Interpreters -/

/-- Adds an interpreter with an empty registry and an empty pool (`with_config`). -/
def addInterpreter (ws : Workspace) (name : String) (session : SessionId) (config : Config) :
    Workspace :=
  let i : Interpreter := ⟨session, config, ws.fresh, ws.fresh⟩
  sweep { ws with
    interpreters := ws.interpreters.put name i
    registries := (ws.fresh, { generation := ws.fresh }) :: ws.registries
    pools := (ws.fresh, { capacity := config.poolCapacity }) :: ws.pools
    fresh := ws.fresh + 1 }

/-- Adds a clone of an interpreter. -/
def cloneInterpreter (ws : Workspace) (i : Interpreter) (name : String) : Workspace :=
  sweep { ws with interpreters := ws.interpreters.put name i }

/-- Removes an interpreter. -/
def dropInterpreter (ws : Workspace) (name : String) : Workspace :=
  sweep { ws with interpreters := ws.interpreters.remove name }

/-- Adds a global callable to the registry of an interpreter (`register_function`). -/
def register (ws : Workspace) (i : Interpreter) (c : Callable) :
    Except EvalError Unit × Workspace :=
  if ws.isShared i then (.error .registryInUse, ws)
  else
    let r := (ws.registry i).register ws.fresh c
    let ws := ws.setRegistry i r
    (.ok (), { ws with
      fresh := ws.fresh + 1
      world := ws.world.note (.registeredFunction c.name c.arity) })

/-- Adds a module to the registry of an interpreter (`register_module`). -/
def registerModule (ws : Workspace) (i : Interpreter) (m : Module) :
    Except EvalError Unit × Workspace :=
  if ws.isShared i then (.error .registryInUse, ws)
  else
    match (ws.registry i).registerModule ws.fresh m with
    | .error e => (.error e, ws)
    | .ok r =>
      let ws := ws.setRegistry i r
      (.ok (), { ws with
        fresh := ws.fresh + 1
        world := ws.world.note (.registeredModule m.name m.functions.length) })

/-- Adds global callables one after another. -/
def registerAll (ws : Workspace) (i : Interpreter) (cs : List Callable) : Workspace :=
  cs.foldl (fun ws c => (ws.register i c).2) ws

/-! ## Programs -/

/-- Parses a source and gives the program a number, without putting it anywhere (`parse_source`). -/
def load (ws : Workspace) (source : Source) : Except Diagnostic (Linked Block) × Workspace :=
  match parse source with
  | .error d => (.error d, ws)
  | .ok b => (.ok ⟨ws.fresh, b⟩, { ws with fresh := ws.fresh + 1 })

/-- Puts a program under a name. -/
def addProgram (ws : Workspace) (name : String) (p : Linked Block) : Workspace :=
  { ws with programs := ws.programs.put name p }

/-- Removes a program; with `emptyDrawer` also the block in the host's drawer. -/
def dropProgram (ws : Workspace) (name : String) (emptyDrawer : Bool) : Workspace :=
  let ws := { ws with programs := ws.programs.remove name }
  if emptyDrawer then { ws with world := { ws.world with drawer := none } } else ws

/-! ## Evaluation -/

/-- What an evaluation by an interpreter finds; `extra` are programs that exist without a name. -/
def env (ws : Workspace) (i : Interpreter) (extra : List ProgramId) : Env where
  registry := ws.registry i
  config := i.config
  programs := extra ++ ws.programs.map fun p => p.2.program
  roots := (ws.registries.flatMap fun e => e.2.callables).filterMap fun c =>
    c.script?.map Root.ofFunction

/-- The world with the pool of an interpreter. -/
def worldOf (ws : Workspace) (i : Interpreter) : World := { ws.world with pool := ws.pool i }

/-- Takes over the world after an evaluation by an interpreter. -/
def adopt (ws : Workspace) (i : Interpreter) (w : World) : Workspace :=
  { ws.setPool i w.pool with world := w }

/-- Runs a program on a given context (`eval_with`). -/
def evalWith (ws : Workspace) (i : Interpreter) (p : Linked Block) (c : Context) :
    Option (Except EvalError Unit × Context × Workspace) :=
  (Eval.program (ws.env i []) fuel p ⟨c, ws.worldOf i⟩).map fun (result, m) =>
    (result, m.ctx, ws.adopt i m.world)

/-- Runs a program on a context from the pool (`eval`). -/
def eval (ws : Workspace) (i : Interpreter) (p : Linked Block) :
    Option (Except EvalError Unit × Workspace) :=
  (Eval.pooled (ws.env i [p.program]) fuel i.session p (ws.worldOf i)).map fun (result, w) =>
    (result, ws.adopt i w)

/-- Parses a text and runs it on a context from the pool (`eval_source`). -/
def evalText (ws : Workspace) (i : Interpreter) (text : List Char) :
    Option (Except EvalError Unit × Workspace) :=
  match ws.load ⟨i.config.fileName, text⟩ with
  | (.error d, ws) => some (.error (.malformed d), ws)
  | (.ok p, ws) => ws.eval i p

/-- Runs a block as a task from a given context (`spawn`). -/
def spawn (ws : Workspace) (i : Interpreter) (b : Linked Block) (c : Context) : Option Workspace :=
  (Eval.task (ws.env i []) fuel b ⟨c, ws.worldOf i⟩).map fun m => ws.adopt i m.world

/-- Calls a callable on a given context, without making a failure of the host an error of its
    caller: an error that the function passes on is the result itself. -/
def invoke (ws : Workspace) (i : Interpreter) (callable : Callable) (args : List Expr)
    (c : Context) : Option (Except EvalError Unit × Context × Workspace) :=
  let m : Machine := ⟨c, ws.worldOf i⟩
  let finish (ending : Ending) := (ending.1, ending.2.ctx, ws.adopt i ending.2.world)
  match callable with
  | .script f => (Eval.script (ws.env i []) fuel f args m).map finish
  | .native _ _ body =>
    (Eval.action (ws.env i []) fuel (body args) m).map fun
      | (.ok (), m) => finish (.ok (), m)
      | (.error (.raised e), m) => finish (.error e, m)
      | (.error (.text s), m) => finish (.error (.native "invoke" (.text s)), m)

/-! ## What calls remember -/

/-- What a call remembers of its function. -/
inductive Memory where
  | nothing
  | nested
  | gone
  | slot (index : Nat) (current : Bool)
  deriving DecidableEq, Repr

/-- What a call remembers, from the point of view of an interpreter. -/
def memory (ws : Workspace) (i : Interpreter) (site : CallSite) : Memory :=
  match ws.world.calls.lookup site with
  | none => .nothing
  | some (.nested f) => if (ws.env i []).exists? ws.world.drawer f then .nested else .gone
  | some (.slot generation index) => .slot index (generation == (ws.registry i).generation)

/-- The module that a call remembers, and whether it still counts for an interpreter. -/
def moduleMemory (ws : Workspace) (i : Interpreter) (site : CallSite) : Option (Nat × Bool) :=
  (ws.world.moduleCalls.lookup site).map fun slot =>
    (slot.id, slot.generation == (ws.registry i).generation)

/-! ## Sessions, output and log -/

/-- Adds a new context of a session (`new_context`). -/
def newContext (ws : Workspace) (session : SessionId) : Context × Workspace :=
  let (c, stores) := Context.create ws.world.stores session
  (c, { ws with world := { ws.world with stores } })

/-- Puts a context under a name. -/
def setContext (ws : Workspace) (name : String) (c : Context) : Workspace :=
  { ws with contexts := ws.contexts.put name c }

/-- Gives a variable a value, as seen by a context (`set`). -/
def write (ws : Workspace) (c : Context) (v : Var) (value : Value) : Context × Workspace :=
  let (c, stores) := c.write ws.world.stores v value
  (c, { ws with world := { ws.world with stores } })

/-- The variables that a session has now, made if there are none (`snapshot`). -/
def sessionVars (ws : Workspace) (session : SessionId) : StoreId × Workspace :=
  let (id, stores) := ws.world.stores.obtain session
  (id, { ws with world := { ws.world with stores } })

/-- Forgets the variables of a session, and tells whether there were any (`clear_session`). -/
def clearSession (ws : Workspace) (session : SessionId) : Bool × Workspace :=
  let (existed, stores) := ws.world.stores.forget session
  let world := { ws.world with stores }
  (existed, { ws with world := if existed then world.note (.sessionCleared session) else world })

/-- Takes the output and the log so far, the earliest first. -/
def drain (ws : Workspace) : List String × List Event × Workspace :=
  (ws.world.output.reverse, ws.world.log.reverse,
    { ws with world := { ws.world with output := [], log := [] } })

end Workspace

end TierScript
