import TierScript.Program.Basic
import TierScript.Value.Arith
import TierScript.Value.Compare

/-!
# Expressions and conditions

Expressions only read variables, so their value is a function of an assignment of values to
variables. Operands joined by `+` alone, with a string among them, are concatenated; all others are
folded as numbers. Conditions are taken in written order and stop at the first `&&` that is reached
with a false result or `||` that is reached with a true one.
-/

namespace TierScript

/-- The value of operands joined by operators (in `eval_expression`). A single operand is its own
    value. -/
def combine (values : List Value) (ops : List ArithOp) : Except ArithError Value :=
  match values with
  | [v] => .ok v
  | _ =>
    if ops.all (· == .add) && values.any Value.isStr then
      .ok (.str (String.ofList (values.flatMap Value.text)))
    else (foldNumeric values ops).map Number.toValue

/-- The value of an operand after its signs: first the minus sign, then the `!` (in `eval_term`). -/
def applySigns (negate invert : Bool) (v : Value) : Except ArithError Value :=
  let signed := if negate then v.toNumber.map fun n => n.negate.toValue else .ok v
  if invert then signed.map fun w => .bool (!w.isTrue) else signed

mutual

/-- The value of an expression (`eval_expression`). All operands are evaluated, from left to
    right. -/
def Expr.eval (env : Var → Value) : Expr → Except ArithError Value
  | ⟨terms, ops, _⟩ =>
    match Term.evalAll env terms with
    | .error e => .error e
    | .ok values => combine values ops

/-- The value of an operand (`eval_term`). -/
def Term.eval (env : Var → Value) : Term → Except ArithError Value
  | ⟨kind, invert, negate, _⟩ =>
    match Term.Kind.eval env kind with
    | .error e => .error e
    | .ok v => applySigns negate invert v

/-- The value of an operand without its signs (in `eval_term`). -/
def Term.Kind.eval (env : Var → Value) : Term.Kind → Except ArithError Value
  | .number n => .ok (.int n)
  | .str s => .ok (.str s)
  | .bool b => .ok (.bool b)
  | .null => .ok .null
  | .var v => .ok (env v)
  | .group e => Expr.eval env e

/-- The values of operands, or the first error (the loop of `eval_expression`). -/
def Term.evalAll (env : Var → Value) : List Term → Except ArithError (List Value)
  | [] => .ok []
  | t :: ts =>
    match Term.eval env t with
    | .error e => .error e
    | .ok v =>
      match Term.evalAll env ts with
      | .error e => .error e
      | .ok vs => .ok (v :: vs)

end

/-- Whether a condition holds (`eval_single_condition`). -/
def Condition.eval (env : Var → Value) (c : Condition) : Except ArithError Bool :=
  match c.left.eval env with
  | .error e => .error e
  | .ok left =>
    match c.comparison with
    | none => .ok left.isTrue
    | some (op, right) =>
      match right.eval env with
      | .error e => .error e
      | .ok right => .ok (compareValues op left right)

/-- The result of the conditions that follow one with the result `holds` (the loop of
    `eval_condition`). -/
def evalChain (env : Var → Value) (holds : Bool) :
    List (BoolOp × Condition) → Except ArithError Bool
  | [] => .ok holds
  | (op, c) :: rest =>
    match op, holds with
    | .and, false => .ok false
    | .or, true => .ok true
    | _, _ =>
      match c.eval env with
      | .error e => .error e
      | .ok next => evalChain env next rest

/-- Whether a list of conditions holds (`eval_condition`). No condition at all does not hold. -/
def Conditions.eval (env : Var → Value) (c : Conditions) : Except ArithError Bool :=
  match c.items with
  | [] => .ok false
  | first :: rest =>
    match first.eval env with
    | .error e => .error e
    | .ok holds => evalChain env holds (c.ops.zip rest)

end TierScript
