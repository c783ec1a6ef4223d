import TierScript.Program.Operator
import TierScript.Value.Basic

/-!
# Arithmetic

Numbers joined by operators are folded from left to right with an accumulator and a composing value:
`*` and `/` change the composing value, `+` and `-` commit it to the accumulator under the sign
before it and start a new one. Integers wrap around at 64 bits; one double among the operands makes
all of them doubles.
-/

namespace TierScript

/-- Why arithmetic has no result. -/
inductive ArithError where
  /-- A text that spells no number. -/
  | notNumeric (text : String)
  /-- An array as an operand. -/
  | arrayOperand
  /-- The division of an integer by zero. -/
  | divisionByZero (dividend : Int64)
  deriving DecidableEq, Repr, Inhabited

/-- The wording of an arithmetic error. -/
def ArithError.message : ArithError → String
  | .notNumeric text => "type mismatch: cannot use string '" ++ text ++ "' as a number"
  | .arrayOperand => "type mismatch: cannot use an array as a number"
  | .divisionByZero dividend =>
    "arithmetic trap: integer division by zero (" ++ toString dividend.toInt ++ " / 0)"

namespace Value

/-- The value as an operand of arithmetic: null is 0, truth values are 1 and 0, a text is read
    (`to_number`). -/
def toNumber : Value → Except ArithError Number
  | null => .ok (.int 0)
  | bool b => .ok (.int (if b then 1 else 0))
  | int n => .ok (.int n)
  | float x => .ok (.float x)
  | str s =>
    match Number.ofText? s.toList with
    | some n => .ok n
    | none => .error (.notNumeric s)
  | array _ => .error .arrayOperand

/-- The operands of a list of values, or the error of the first that is none (in `fold_numeric`). -/
def toNumbers : List Value → Except ArithError (List Number)
  | [] => .ok []
  | v :: vs =>
    match v.toNumber with
    | .error e => .error e
    | .ok n =>
      match toNumbers vs with
      | .error e => .error e
      | .ok ns => .ok (n :: ns)

end Value

namespace Number

/-- One operation (`apply`). Two integers give an integer. -/
def apply (lhs : Number) (op : ArithOp) (rhs : Number) : Except ArithError Number :=
  match lhs, rhs with
  | int a, int b =>
    match op with
    | .add => .ok (int (a + b))
    | .sub => .ok (int (a - b))
    | .mul => .ok (int (a * b))
    | .div => if b = 0 then .error (.divisionByZero a) else .ok (int (a / b))
  | _, _ =>
    let a := lhs.toFloat
    let b := rhs.toFloat
    match op with
    | .add => .ok (float (a + b))
    | .sub => .ok (float (a - b))
    | .mul => .ok (float (a * b))
    | .div => .ok (float (a / b))

/-- All numbers as doubles if one of them is a double (in `fold_numeric`). -/
def unify (ns : List Number) : List Number :=
  if ns.any isFloat then ns.map fun n => float n.toFloat else ns

/-- The fold after the first operand: `total` is the accumulator, `part` the composing value and
    `sign` the operator before it (the loop of `fold_numeric`). -/
def compose (total : Number) (sign : ArithOp) (part : Number) :
    List (ArithOp × Number) → Except ArithError Number
  | [] => total.apply sign part
  | (op, n) :: rest =>
    match op with
    | .add | .sub =>
      match total.apply sign part with
      | .error e => .error e
      | .ok total' => compose total' op n rest
    | .mul | .div =>
      match part.apply op n with
      | .error e => .error e
      | .ok part' => compose total sign part' rest

end Number

/-- The value of operands joined by operators (`fold_numeric`). Where there are more operands or
    more operators than fit together, the surplus is left out; no operands make zero. -/
def foldNumeric (values : List Value) (ops : List ArithOp) : Except ArithError Number :=
  match Value.toNumbers values with
  | .error e => .error e
  | .ok numbers =>
    match Number.unify numbers with
    | [] => .ok (.int 0)
    | first :: rest => Number.compose (.int 0) .add first (ops.zip rest)

end TierScript
