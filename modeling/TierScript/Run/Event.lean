import TierScript.Run.Stores
import TierScript.Source.Span

/-!
# The log

What an interpreter reports about its work, apart from results and output.
-/

namespace TierScript

/-- How many arguments a function takes. -/
inductive Arity where
  | exact (n : Nat)
  | any
  deriving DecidableEq, Repr, Inhabited

/-- The number of arguments, `-1` standing for any (`fmt` of `Arity`). -/
def Arity.render : Arity → String
  | .exact n => toString n
  | .any => "-1"

/-- How important an entry of the log is. -/
inductive Level where
  | trace
  | debug
  | warn
  | error
  deriving DecidableEq, Repr, Inhabited

/-- The name of a level. -/
def Level.render : Level → String
  | .trace => "trace"
  | .debug => "debug"
  | .warn => "warn"
  | .error => "error"

/-- Whether entries of this level are shown to everybody. -/
def Level.isUrgent : Level → Bool
  | .warn | .error => true
  | _ => false

/-- An entry of the log. -/
inductive Event where
  | registeredFunction (name : String) (arity : Arity)
  | registeredModule (name : String) (functions : Nat)
  | evaluating (session : SessionId) (statements functions : Nat)
  | resolvedNested (name : String) (arity : Nat)
  | resolvedRegistered (name : String) (arity slot : Nat)
  | resolvedModule (name : String) (id : Nat)
  | skippedLoop (span : Span) (dest src : String)
  | sessionCleared (session : SessionId)
  | taskStarted (session : SessionId)
  | taskFailed (message : String)
  | spawnedBlock
  deriving DecidableEq, Repr, Inhabited

namespace Event

/-- How important an entry is. -/
def level : Event → Level
  | registeredFunction .. | registeredModule .. | evaluating .. | sessionCleared ..
  | taskStarted .. | spawnedBlock => .debug
  | resolvedNested .. | resolvedRegistered .. | resolvedModule .. => .trace
  | skippedLoop .. => .warn
  | taskFailed .. => .error

/-- The wording of an entry. -/
def message : Event → String
  | registeredFunction .. => "registered function"
  | registeredModule .. => "registered module"
  | evaluating .. => "evaluating program"
  | resolvedNested .. => "resolved nested function"
  | resolvedRegistered .. => "resolved registered function"
  | resolvedModule .. => "resolved module"
  | skippedLoop .. => "for loop needs two integers or a variable and an array; skipping"
  | sessionCleared .. => "session store cleared"
  | taskStarted .. => "task started"
  | taskFailed .. => "task failed"
  | spawnedBlock => "spawned attached block"

/-- The details of an entry. -/
def fields : Event → List (String × String)
  | registeredFunction name arity => [("function", name), ("arity", arity.render)]
  | registeredModule name functions => [("module", name), ("functions", toString functions)]
  | evaluating session statements functions =>
    [("session", sessionName session), ("statements", toString statements),
     ("functions", toString functions)]
  | resolvedNested name arity => [("function", name), ("arity", toString arity)]
  | resolvedRegistered name arity slot =>
    [("function", name), ("arity", toString arity), ("slot", toString slot)]
  | resolvedModule name id => [("module", name), ("id", toString id)]
  | skippedLoop span dest src => [("span", span.render), ("dest", dest), ("src", src)]
  | sessionCleared session => [("session", sessionName session)]
  | taskStarted session => [("session", sessionName session)]
  | taskFailed message => [("error", message)]
  | spawnedBlock => []

end Event

end TierScript
