import TierScript.Run.Config
import TierScript.Run.Expression
import TierScript.Run.Pool
import TierScript.Run.Registry

/-!
# Machines

What an evaluation works on. The `Env` is fixed while it runs: the registry, the configuration, and
which programs are still there. The `Machine` changes: the current context, and the `World` that
contexts share, with the variables, the pool, what calls were resolved to, the output and the log.

A call remembers what it was resolved to the first time. It remembers a function of the script as
long as that function exists, and a callable of a registry as long as the registry has the
generation it had then. What is remembered is never replaced.
-/

namespace TierScript

/-! ## Calls and what they were resolved to -/

/-- A call in a program (the place of a `CallCache` or a `ModuleCache`). A call is known by its
    program and its span; what it calls is part of its identity too, so that remembered answers can
    be checked. -/
structure CallSite where
  program : ProgramId
  span : Span
  module : Option String
  name : String
  arity : Nat
  deriving DecidableEq, Repr, Inhabited

/-- The site of a call of a function. -/
def Call.site (c : Call) (program : ProgramId) : CallSite :=
  ⟨program, c.span, none, c.name, c.arity⟩

/-- The site of a call of a function of a module. -/
def Call.moduleSite (c : Call) (program : ProgramId) (module : String) : CallSite :=
  ⟨program, c.span, some module, c.name, c.arity⟩

/-- What a call was resolved to. -/
inductive Resolution where
  /-- A function of the script. -/
  | nested (f : Linked FnDef)
  /-- A slot of a registry, or an index in one of its modules. -/
  | slot (generation index : Nat)

/-- The module that a call was resolved to. -/
structure ModuleSlot where
  generation : Nat
  id : Nat
  deriving DecidableEq, Repr, Inhabited

/-- Remembers an answer for a site that has none yet (`fill`). -/
def remember {α : Type} (answers : List (CallSite × α)) (site : CallSite) (a : α) :
    List (CallSite × α) :=
  if (answers.lookup site).isSome then answers else (site, a) :: answers

/-! ## The world -/

/-- What contexts share. -/
structure World where
  stores : Stores := {}
  pool : Pool := {}
  calls : List (CallSite × Resolution) := []
  moduleCalls : List (CallSite × ModuleSlot) := []
  /-- The host's drawer for a block. -/
  drawer : Option (Linked Block) := none
  /-- The lines of output, the latest first. -/
  output : List String := []
  /-- The entries of the log, the latest first. -/
  log : List Event := []
  deriving Inhabited

namespace World

/-- Adds an entry to the log. -/
def note (w : World) (e : Event) : World := { w with log := e :: w.log }

/-- Writes a line of output. -/
def print (w : World) (line : String) : World := { w with output := line :: w.output }

/-- Takes a context from the pool (`obtain`). -/
def obtain (w : World) (session : SessionId) : Context × World :=
  let (c, pool, stores) := w.pool.obtain w.stores session
  (c, { w with pool, stores })

/-- Gives a context back to the pool (`release`). -/
def release (w : World) (c : Context) : World := { w with pool := w.pool.release c }

end World

/-! ## The environment -/

/-- A part of a program that is held by someone, so that the functions in it exist even without the
    program. -/
structure Root where
  program : ProgramId
  span : Span
  deriving DecidableEq, Repr, Inhabited

/-- Holding a block holds what is written in it. -/
def Root.ofBlock (b : Linked Block) : Root := ⟨b.program, b.node.span⟩

/-- Holding a function holds what is written in it. -/
def Root.ofFunction (f : Linked FnDef) : Root := ⟨f.program, f.node.span⟩

/-- What does not change during an evaluation. -/
structure Env where
  registry : Registry
  config : Config := {}
  /-- The programs that exist. -/
  programs : List ProgramId := []
  /-- What is held of programs, whether they exist or not. -/
  roots : List Root := []
  deriving Inhabited

namespace Env

/-- Holds a part of a program while it runs. -/
def hold (env : Env) (root : Root) : Env := { env with roots := root :: env.roots }

/-- Whether a function exists: its program does, or someone holds a part that it is in (in
    `resolve_call`). -/
def exists? (env : Env) (drawer : Option (Linked Block)) (f : Linked FnDef) : Bool :=
  env.programs.contains f.program ||
    (env.roots ++ (drawer.map Root.ofBlock).toList).any fun root =>
      root.program == f.program && root.span.covers f.node.span

end Env

/-! ## The machine -/

/-- The current context and what it shares with others. -/
structure Machine where
  ctx : Context
  world : World
  deriving Inhabited

namespace Machine

/-- The values of the variables, as the current context sees them (`get`). -/
def lookup (m : Machine) (v : Var) : Value := m.ctx.read m.world.stores v

/-- Gives a variable a value (`set`). -/
def write (m : Machine) (v : Var) (value : Value) : Machine :=
  let (ctx, stores) := m.ctx.write m.world.stores v value
  { ctx, world := { m.world with stores } }

/-- Changes the current context. -/
def modifyCtx (m : Machine) (f : Context → Context) : Machine := { m with ctx := f m.ctx }

/-- Adds an entry to the log. -/
def note (m : Machine) (e : Event) : Machine := { m with world := m.world.note e }

/-- Remembers what a call was resolved to. -/
def rememberCall (m : Machine) (site : CallSite) (r : Resolution) : Machine :=
  { m with world := { m.world with calls := remember m.world.calls site r } }

/-- Remembers the module that a call was resolved to. -/
def rememberModule (m : Machine) (site : CallSite) (slot : ModuleSlot) : Machine :=
  { m with world := { m.world with moduleCalls := remember m.world.moduleCalls site slot } }

/-! ## Resolving calls -/

/-- What a call remembers, if it still counts (in `resolve_call`). -/
def remembered? (env : Env) (m : Machine) (site : CallSite) : Option Callable :=
  match m.world.calls.lookup site with
  | some (.nested f) => if env.exists? m.world.drawer f then some (.script f) else none
  | some (.slot generation index) =>
    if generation = env.registry.generation then env.registry.slots[index]? else none
  | none => none

/-- Resolves a call without looking at what it remembers: the innermost function around it, then the
    registry (in `resolve_call`). Gives the callable, what to remember and what to log. -/
def search? (env : Env) (ctx : Context) (name : String) (arity : Nat) :
    Option (Callable × Resolution × Event) :=
  match ctx.findFunction? name arity with
  | some f => some (.script f, .nested f, .resolvedNested name arity)
  | none =>
    (env.registry.resolve? name arity).bind fun slot =>
      env.registry.slots[slot]?.map fun c =>
        (c, .slot env.registry.generation slot, .resolvedRegistered name arity slot)

/-- The callable that a call means (`resolve_call`). -/
def resolve (env : Env) (program : ProgramId) (call : Call) (m : Machine) :
    Except EvalError Callable × Machine :=
  let site := call.site program
  match m.remembered? env site with
  | some c => (.ok c, m)
  | none =>
    match search? env m.ctx call.name call.arity with
    | some (c, resolution, event) => (.ok c, (m.note event).rememberCall site resolution)
    | none => (.error (.unresolvedFunction call.name call.arity call.span), m)

/-- The id of the module that a call means (in `call_module_function`). -/
def resolveModule (env : Env) (site : CallSite) (module : String) (m : Machine) :
    Option Nat × Machine :=
  match m.world.moduleCalls.lookup site with
  | some slot =>
    if slot.generation = env.registry.generation then (some slot.id, m) else fresh
  | none => fresh
where
  /-- Looks the module up in the registry. -/
  fresh : Option Nat × Machine :=
    match env.registry.moduleId? module with
    | none => (none, m)
    | some id =>
      (some id, (m.note (.resolvedModule module id)).rememberModule site
        ⟨env.registry.generation, id⟩)

/-- The callable of a module that a call means (in `call_module_function`). -/
def resolveIn (env : Env) (site : CallSite) (module : Module) (m : Machine) :
    Option Callable × Machine :=
  let remembered := match m.world.calls.lookup site with
    | some (.slot generation index) =>
      if generation = env.registry.generation then module.functions[index]? else none
    | _ => none
  match remembered with
  | some c => (some c, m)
  | none =>
    match module.resolve? site.name site.arity with
    | none => (none, m)
    | some index =>
      (module.functions[index]?, m.rememberCall site (.slot env.registry.generation index))

/-- The callable that a call of a function of a module means (in `call_module_function`). -/
def resolveModuleCall (env : Env) (program : ProgramId) (module : String) (call : Call)
    (m : Machine) : Except EvalError Callable × Machine :=
  let site := call.moduleSite program module
  match m.resolveModule env site module with
  | (none, m) => (.error (.unknownModule module call.span), m)
  | (some id, m) =>
    match env.registry.modules[id]? with
    | none => (.error (.unknownModule module call.span), m)
    | some found =>
      match m.resolveIn env site found with
      | (some c, m) => (.ok c, m)
      | (none, m) => (.error (.unresolvedModuleFunction module call.name call.arity call.span), m)

end Machine

end TierScript
