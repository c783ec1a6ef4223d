import TierScript.Run.Action
import TierScript.Text.Quoted

/-!
# Callables, modules and registries

A callable is a function of the host or a script function that was made available under its name. A
module is a named list of callables, a registry a list of global callables and of modules. A
callable is found by its name and the number of arguments; one that takes exactly that many comes
before one that takes any number.

In a registry the latest of several equal callables counts, in a module the earliest. Every change
of a registry gives it a new generation.
-/

namespace TierScript

/-- Something that can be called by name (`NativeFunction`). -/
inductive Callable where
  | native (name : String) (arity : Arity) (body : List Expr → Action)
  | script (f : Linked FnDef)

instance : Inhabited Callable := ⟨.native "" .any fun _ => .done⟩

namespace Callable

/-- The name of a callable (`name`). -/
def name : Callable → String
  | native name _ _ => name
  | script f => f.node.name

/-- The number of arguments that a callable takes (`arity`). -/
def arity : Callable → Arity
  | native _ arity _ => arity
  | script f => .exact f.node.arity

/-- The script function behind a callable (`as_user_function`). -/
def script? : Callable → Option (Linked FnDef)
  | native .. => none
  | script f => some f

/-- Name and number of arguments (`fmt` of `NativeFunction`). -/
def render (c : Callable) : String := "<fn " ++ c.name ++ "/" ++ c.arity.render ++ ">"

end Callable

/-- A named list of callables. -/
structure Module where
  name : String
  functions : List Callable := []
  deriving Inhabited

namespace Module

/-- Adds a callable (`add_function`). -/
def add (m : Module) (c : Callable) : Module := { m with functions := m.functions ++ [c] }

/-- Adds the functions that a program defines at its top (`add_scope`). -/
def addProgram (m : Module) (program : Linked Block) : Module :=
  { m with
    functions := m.functions ++ program.node.functions.map fun f => .script ⟨program.program, f⟩ }

/-- The index of the first callable with the given name and arity (`lookup`). -/
def indexOf? (m : Module) (name : String) (arity : Arity) : Option Nat :=
  m.functions.findIdx? fun c => c.name == name && c.arity == arity

/-- The index of the callable for a name and a number of arguments (`resolve`). -/
def resolve? (m : Module) (name : String) (arity : Nat) : Option Nat :=
  (m.indexOf? name (.exact arity)).or (m.indexOf? name .any)

/-- Name and callables of a module (`fmt` of `Module`). -/
def render (m : Module) : String :=
  "Module \x7b name: " ++ Text.quote m.name ++ ", functions: [" ++
    ", ".intercalate (m.functions.map Callable.render) ++ "] \x7d"

end Module

/-- Global callables and modules (`FunctionRegistry`). -/
structure Registry where
  generation : Nat
  slots : Array Callable := #[]
  /-- For every name the slots that have it, the latest first. -/
  byName : List (String × List Nat) := []
  modules : Array Module := #[]
  /-- The ids of the modules by their names. -/
  moduleIds : List (String × Nat) := []
  deriving Inhabited

namespace Registry

/-- Puts `slot` in front of the slots of `name` (in `register`). -/
def addSlot (name : String) (slot : Nat) : List (String × List Nat) → List (String × List Nat)
  | [] => [(name, [slot])]
  | (key, slots) :: rest =>
    if key = name then (key, slot :: slots) :: rest else (key, slots) :: addSlot name slot rest

/-- Adds a global callable (`register`). -/
def register (r : Registry) (generation : Nat) (c : Callable) : Registry :=
  { r with
    generation
    slots := r.slots.push c
    byName := addSlot c.name r.slots.size r.byName }

/-- The id of the module with the given name (`module_id`). -/
def moduleId? (r : Registry) (name : String) : Option Nat :=
  r.moduleIds.lookup name

/-- Adds a module, unless there is one with its name (`register_module`). -/
def registerModule (r : Registry) (generation : Nat) (m : Module) : Except EvalError Registry :=
  match r.moduleId? m.name with
  | some _ => .error (.duplicateModule m.name)
  | none =>
    .ok { r with
      generation
      modules := r.modules.push m
      moduleIds := (m.name, r.modules.size) :: r.moduleIds }

/-- The first of the slots whose callable has the given arity (in `resolve`). -/
def firstWith? (r : Registry) (slots : List Nat) (arity : Arity) : Option Nat :=
  slots.find? fun slot => (r.slots[slot]?.map Callable.arity) == some arity

/-- The slot of the global callable for a name and a number of arguments (`resolve`). -/
def resolve? (r : Registry) (name : String) (arity : Nat) : Option Nat :=
  (r.byName.lookup name).bind fun slots =>
    (r.firstWith? slots (.exact arity)).or (r.firstWith? slots .any)

/-- All callables of a registry, those of its modules included. -/
def callables (r : Registry) : List Callable :=
  r.slots.toList ++ r.modules.toList.flatMap Module.functions

end Registry

end TierScript
