import TierScript.Program.Operator
import TierScript.Source.Span

/-!
# Programs

The tree of a program. A program is a block: statements in order, and the functions that are defined
directly in it. Expressions are flat lists of operands with operators in between; there is no
precedence in the tree. Every node knows the span it was written in.
-/

namespace TierScript

/-! ## Expressions -/

mutual

/-- Operands and the operators between them (`Expression`). -/
structure Expr where
  terms : List Term
  ops : List ArithOp
  span : Span

/-- One operand. `negate` is a leading minus sign before a variable, `invert` a leading `!`. -/
structure Term where
  kind : Term.Kind
  invert : Bool
  negate : Bool
  span : Span

/-- What an operand is, apart from its signs (`TermKind`). -/
inductive Term.Kind where
  | number (n : Int64)
  | str (s : String)
  | bool (b : Bool)
  | null
  | var (v : Var)
  | group (e : Expr)

end

instance : Inhabited Term := ⟨⟨.null, false, false, .first⟩⟩

instance : Inhabited Expr := ⟨⟨[], [], .first⟩⟩

/-- The variable that an operand is, if it is a variable without signs (in `run_for`). -/
def Term.plainVar? (t : Term) : Option Var :=
  match t.kind with
  | .var v => if t.invert || t.negate then none else some v
  | _ => none

/-- The expression with a single operand (`single`). -/
def Expr.single (t : Term) : Expr := ⟨[t], [], t.span⟩

/-- The variable that an expression is, if it is a variable without signs and nothing else
    (`as_bare_variable`). Only such an argument can receive a value. -/
def Expr.bareVar? (e : Expr) : Option Var :=
  match e.terms with
  | [t] => t.plainVar?
  | _ => none

/-! ## Conditions -/

/-- An expression that is tested, or a comparison of two expressions. -/
structure Condition where
  left : Expr
  comparison : Option (RelOp × Expr)
  span : Span
  deriving Inhabited

/-- Conditions and the operators between them, in written order (`ConditionalExpression`). -/
structure Conditions where
  items : List Condition
  ops : List BoolOp
  span : Span
  deriving Inhabited

/-! ## Statements -/

/-- A call of a function (`FunctionCall`). The arguments reach the function unevaluated. -/
structure Call where
  name : String
  args : List Expr
  span : Span
  deriving Inhabited

mutual

/-- Statements in order and the functions defined directly among them (`CodeBlock`). -/
structure Block where
  stmts : List Stmt
  functions : List FnDef
  span : Span

/-- The definition of a function (`FunctionDef`). `outs` are the positions of the parameters that
    are copied back to the caller, in ascending order. -/
structure FnDef where
  name : String
  params : List String
  outs : List Nat
  body : Block
  span : Span

/-- A statement. -/
inductive Stmt where
  | block (body : Block)
  | assign (target : Var) (value : Expr) (span : Span)
  | ifElse (condition : Conditions) (body : Block) (otherwise : Option Block) (span : Span)
  | whileLoop (condition : Conditions) (body : Block) (span : Span)
  | forLoop (dest src : Term) (body : Block) (span : Span)
  | breakLoop (span : Span)
  | endCode (span : Span)
  | call (call : Call)
  | moduleCall (module : String) (call : Call)

end

instance : Inhabited Block := ⟨⟨[], [], .first⟩⟩

instance : Inhabited FnDef := ⟨⟨"", [], [], default, .first⟩⟩

instance : Inhabited Stmt := ⟨.breakLoop .first⟩

/-- The number of arguments of a call. -/
def Call.arity (c : Call) : Nat := c.args.length

/-- The number of parameters of a function. -/
def FnDef.arity (f : FnDef) : Nat := f.params.length

/-- The first of the definitions with the given name and number of parameters (`lookup`). -/
def findFunction? (functions : List FnDef) (name : String) (arity : Nat) : Option FnDef :=
  functions.find? fun f => f.name == name && f.arity == arity

/-- The block that a statement is, if it is one. -/
def Stmt.block? : Stmt → Option Block
  | .block b => some b
  | _ => none

end TierScript
