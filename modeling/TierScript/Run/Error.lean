import TierScript.Source.Diagnostic
import TierScript.Value.Arith

/-!
# Errors of an evaluation

Every error ends the evaluation it occurs in. A function of the host fails with a text of its own or
with an error of the interpreter that it passes on; either becomes the cause of the error that the
caller sees.
-/

namespace TierScript

mutual

/-- Why an evaluation ended early. -/
inductive EvalError where
  /-- A text that was to be run is not a program. -/
  | malformed (d : Diagnostic)
  /-- No function has this name and number of parameters. -/
  | unresolvedFunction (name : String) (arity : Nat) (span : Span)
  /-- There is no such module. -/
  | unknownModule (module : String) (span : Span)
  /-- The module has no function with this name and number of parameters. -/
  | unresolvedModuleFunction (module name : String) (arity : Nat) (span : Span)
  /-- There is no loop to break. -/
  | breakOutsideLoop (span : Span)
  /-- A function of the host failed. -/
  | native (function : String) (cause : Cause)
  /-- An operator could not be applied. -/
  | arith (e : ArithError)
  /-- Too many calls of script functions within each other. -/
  | callDepthExceeded (limit : Nat)
  /-- A module with this name exists already. -/
  | duplicateModule (name : String)
  /-- A registry that others share cannot be changed. -/
  | registryInUse
  deriving Inhabited

/-- What a function of the host failed with (`NativeError`). -/
inductive Cause where
  | text (s : String)
  | raised (e : EvalError)
  deriving Inhabited

end

mutual

/-- The wording of an error. -/
def EvalError.message : EvalError → String
  | .malformed d => d.render
  | .unresolvedFunction name arity span =>
    span.render ++ ": no such function: " ++ name ++ " with " ++ toString arity ++ " argument(s)"
  | .unknownModule module span => span.render ++ ": module '" ++ module ++ "' is not registered"
  | .unresolvedModuleFunction module name arity span =>
    span.render ++ ": module '" ++ module ++ "' has no function " ++ name ++ " with " ++
      toString arity ++ " argument(s)"
  | .breakOutsideLoop span => span.render ++ ": 'break' outside of a loop"
  | .native function cause => "native function '" ++ function ++ "' failed: " ++ cause.message
  | .arith e => e.message
  | .callDepthExceeded limit => "call depth limit of " ++ toString limit ++ " exceeded"
  | .duplicateModule name => "module '" ++ name ++ "' is already registered"
  | .registryInUse =>
    "function registry is shared with a running evaluation and cannot be modified"

/-- The wording of a cause. -/
def Cause.message : Cause → String
  | .text s => s
  | .raised e => e.message

end

mutual

/-- The messages of the causes of an error, the nearest first. -/
def EvalError.causes : EvalError → List String
  | .native _ cause => cause.chain
  | _ => []

/-- The messages of a cause and of what caused it in turn. -/
def Cause.chain : Cause → List String
  | .text s => [s]
  | .raised e => e.message :: e.causes

end

end TierScript
