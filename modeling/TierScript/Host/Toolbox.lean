import TierScript.Run.Registry

/-!
# A box of host functions

Functions of the host that print, run the block after the call, keep one for later, look at or
change the state of the evaluation, compute, and start tasks. `Tool.all` lists them in the order in
which an interpreter registers them.
-/

namespace TierScript

/-- A function of the host, before it is given a name. The label is a text that the function may
    show. -/
structure Tool where
  name : String
  arity : Arity
  body : String → List Expr → Action

namespace Tool

/-! ## Building blocks -/

/-- Passes on an error of the interpreter. -/
def raise (e : EvalError) : Action := .fail (.raised e)

/-- Fails with a text. -/
def complain (text : String) : Action := .fail (.text text)

/-- Evaluates an expression and goes on with its value. -/
def evaluated (e : Expr) (next : Value → Action) : Action :=
  .evaluate e fun
    | .ok v => next v
    | .error err => raise (.arith err)

/-- Evaluates expressions in order and goes on with their values. -/
def evaluatedAll : List Expr → (List Value → Action) → Action
  | [], next => next []
  | e :: es, next => evaluated e fun v => evaluatedAll es fun vs => next (v :: vs)

/-- Goes on after a success and passes on an error. -/
def afterwards (next : Action) : Except EvalError Unit → Action
  | .ok () => next
  | .error e => raise e

/-- Goes on with the argument at `index`. -/
def argument (args : List Expr) (index : Nat) (next : Expr → Action) : Action :=
  match args[index]? with
  | some e => next e
  | none => complain ("argument " ++ toString index ++ " is missing")

/-- Goes on with the variable that the argument at `index` is. -/
def bareArg (args : List Expr) (index : Nat) (next : Var → Action) : Action :=
  match args[index]?.bind Expr.bareVar? with
  | some v => next v
  | none => complain ("argument " ++ toString index ++ " must be a variable")

/-- The texts of values with commas in between. -/
def line (vs : List Value) : String := ",".intercalate (vs.map Value.render)

/-- Claims the block after the call and goes on with it; without a block there is nothing to do. -/
def withBlock (next : Linked Block → Action) : Action :=
  .claim fun
    | some b => next b
    | none => .done

/-! ## The functions -/

/-- Prints its arguments. -/
def print : Tool :=
  ⟨"print", .any, fun _ args => evaluatedAll args fun vs => .print (line vs) .done⟩

/-- Prints its label and the number of its arguments. -/
def tag : Tool :=
  ⟨"tag", .any, fun label args => .print (label ++ "/" ++ toString args.length) .done⟩

/-- Runs the block after the call twice. -/
def twice : Tool :=
  ⟨"twice", .exact 0, fun _ _ => withBlock fun b =>
    .run b (afterwards (.run b (afterwards .done)))⟩

/-- Runs the block after the call on a context of its own. -/
def iso : Tool := ⟨"iso", .exact 0, fun _ _ => withBlock fun b => .runApart b (afterwards .done)⟩

/-- Prints how many statements the block after the call has. -/
def peek : Tool :=
  ⟨"peek", .exact 0, fun _ _ => .look fun c =>
    .print ("peek " ++ match c.attached? with
      | some b => toString b.node.stmts.length
      | none => "none") .done⟩

/-- Claims the block after the call twice, and prints whether it got it. -/
def claim : Tool :=
  ⟨"claim", .exact 0, fun _ _ => .claim fun first => .claim fun second =>
    .print ("claim " ++ toString first.isSome ++ " " ++ toString second.isSome) .done⟩

/-- Keeps the block after the call. -/
def keep : Tool := ⟨"keep", .exact 0, fun _ _ => .claim fun b => .keep b .done⟩

/-- Runs the block that was kept. -/
def kept : Tool :=
  ⟨"kept", .exact 0, fun _ _ => .kept fun
    | some b => .run b (afterwards .done)
    | none => complain "nothing kept"⟩

/-- Exchanges the values of two variables. -/
def swap : Tool :=
  ⟨"swap", .exact 2, fun _ args =>
    bareArg args 0 fun x => bareArg args 1 fun y =>
    argument args 0 fun ex => argument args 1 fun ey =>
    evaluated ex fun a => evaluated ey fun b => .write x b (.write y a .done)⟩

/-- Fails with the texts of its arguments. -/
def fail : Tool := ⟨"fail", .any, fun _ args => evaluatedAll args fun vs => complain (line vs)⟩

/-- Sets its first argument to the array of the others. -/
def array : Tool :=
  ⟨"array", .any, fun _ args =>
    bareArg args 0 fun v => evaluatedAll args.tail fun vs => .write v (.array vs) .done⟩

/-- Prints the state of the context. -/
def state : Tool :=
  ⟨"state", .exact 0, fun _ _ => .look fun c =>
    .print ("state loop=" ++ toString c.inLoop ++ " term=" ++ toString c.isTerminated ++ " exit=" ++
      toString c.earlyExit ++ " depth=" ++ toString c.depth ++ " " ++ sessionName c.session) .done⟩

/-- Runs a block at most `n` times within a loop that was entered before, and leaves the loop. -/
def repetition (b : Linked Block) : Nat → Action
  | 0 => .exitLoop .done
  | n + 1 => .look fun c =>
    if c.isTerminated then .exitLoop .done
    else .run b fun
      | .ok () => repetition b n
      | .error e => .exitLoop (raise e)

/-- Runs the block after the call a number of times. -/
def repeated : Tool :=
  ⟨"repeat", .exact 1, fun _ args =>
    argument args 0 fun e => evaluated e fun v =>
    match v.toInteger? with
    | none => complain "repeat needs an integer"
    | some n => .claim fun
      | none => complain "repeat needs a block"
      | some b => .enterLoop (repetition b n.toInt.toNat)⟩

/-- Runs the block after the call if its argument is true. -/
def conditional : Tool :=
  ⟨"when", .exact 1, fun _ args =>
    argument args 0 fun e => evaluated e fun v => withBlock fun b =>
      if v.isTrue then .run b (afterwards .done) else .done⟩

/-- Stops the context. -/
def exit : Tool := ⟨"exit", .exact 0, fun _ _ => .setExit .done⟩

/-- Lets the context run again. -/
def resume : Tool := ⟨"resume", .exact 0, fun _ _ => .clearExit .done⟩

/-- Breaks the innermost loop, and prints whether there was one. -/
def brk : Tool :=
  ⟨"brk", .exact 0, fun _ _ => .breakLoop fun broken => .print ("brk " ++ toString broken) .done⟩

/-- Sets its third argument to the result of an operation on the other two. -/
def arith (op : ArithOp) : Tool :=
  ⟨"s" ++ op.render, .exact 3, fun _ args =>
    bareArg args 2 fun target =>
    argument args 0 fun e₁ => argument args 1 fun e₂ =>
    evaluated e₁ fun a => evaluated e₂ fun b =>
    match foldNumeric [a, b] [op] with
    | .ok n => .write target n.toValue .done
    | .error err => raise (.arith err)⟩

/-- Prints its arguments after its name. -/
def second : Tool :=
  ⟨"s2", .any, fun _ args => evaluatedAll args fun vs => .print ("s2 " ++ line vs) .done⟩

/-- Runs the block after the call as a task and waits for it. -/
def task : Tool := ⟨"task", .exact 0, fun _ _ => withBlock fun b => .spawn b .done⟩

/-- Runs the block after the call as a task (`SpawnFunction`). -/
def spawn : Tool :=
  ⟨"spawn", .exact 0, fun _ _ => withBlock fun b => .spawn b (.note .spawnedBlock .done)⟩

/-- The functions that an interpreter has from the start, in order. -/
def standard : List Tool :=
  [print, twice, iso, peek, claim, keep, kept, swap, fail, array, state, repeated, conditional,
   exit, resume, brk, arith .add, arith .sub, arith .mul, arith .div, second, task, spawn]

/-- All functions in the box. -/
def all : List Tool := standard ++ [tag]

/-- The function with the given name. -/
def find? (name : String) : Option Tool := all.find? fun t => t.name == name

/-- The function under a name of its own or another, for its own or another number of arguments.
    Without a label the name is the label. -/
def callable (t : Tool) (name : Option String := none) (arity : Option Arity := none)
    (label : Option String := none) : Callable :=
  let name := name.getD t.name
  .native name (arity.getD t.arity) (t.body (label.getD name))

end Tool

end TierScript
