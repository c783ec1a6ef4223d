import TierScript.Run.Context
import TierScript.Run.Error
import TierScript.Run.Event

/-!
# What a function of the host does

A function of the host receives its arguments unevaluated and then asks the interpreter for one
thing after another. `Action` is the tree of these requests: each one but the last says how to go
on once it has been answered.
-/

namespace TierScript

/-- A request to the interpreter and what to do after it (the body of a `NativeFn`). -/
inductive Action where
  /-- The function has done its work. -/
  | done
  /-- The function has failed. -/
  | fail (cause : Cause)
  /-- Evaluates an expression in the current context. -/
  | evaluate (e : Expr) (next : Except ArithError Value → Action)
  /-- Gives a variable a value. -/
  | write (v : Var) (value : Value) (next : Action)
  /-- Looks at the current context. -/
  | look (next : Context → Action)
  /-- Claims the block after the call. -/
  | claim (next : Option (Linked Block) → Action)
  /-- Runs a block on the current context. -/
  | run (b : Linked Block) (next : Except EvalError Unit → Action)
  /-- Runs a block on a context of its own that starts with a copy of the variables. -/
  | runApart (b : Linked Block) (next : Except EvalError Unit → Action)
  /-- Runs a block as a task. Its errors go to the log. -/
  | spawn (b : Linked Block) (next : Action)
  /-- Enters a loop. -/
  | enterLoop (next : Action)
  /-- Leaves the innermost loop. -/
  | exitLoop (next : Action)
  /-- Breaks the innermost loop, if there is one. -/
  | breakLoop (next : Bool → Action)
  /-- Stops the current context. -/
  | setExit (next : Action)
  /-- Lets the current context run again. -/
  | clearExit (next : Action)
  /-- Writes a line of output. -/
  | print (line : String) (next : Action)
  /-- Puts a block, or nothing, into the host's drawer. -/
  | keep (b : Option (Linked Block)) (next : Action)
  /-- Looks into the host's drawer. -/
  | kept (next : Option (Linked Block) → Action)
  /-- Adds an entry to the log. -/
  | note (e : Event) (next : Action)

instance : Inhabited Action := ⟨.done⟩

end TierScript
