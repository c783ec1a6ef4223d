import TierScript.Proofs.Program.Language
import TierScript.Proofs.Token.Pieces

/-!
# The canonical text of a program

`Block.text` writes a program: in each block the functions first, each as `fn name(p, *q)`, its body
and `end fn`, then the statements one per line. Variables are written with their tier, operators
between spaces, negative numbers with a minus sign, strings in quotes, and the second branch of a
conditional statement in braces.
-/

namespace TierScript

open Parse (Item)

/-! ## Operators and names -/

/-- The kind of token that an operator is written as. -/
def ArithOp.kind : ArithOp → Kind
  | .add => .plus
  | .sub => .minus
  | .mul => .star
  | .div => .slash

@[inherit_doc ArithOp.kind]
def RelOp.kind : RelOp → Kind
  | .eq => .eqEq
  | .notEq => .notEq
  | .lt => .lt
  | .gt => .gt
  | .ltEq => .ltEq
  | .gtEq => .gtEq
  | .startsWith => .startsWith
  | .contains => .contains
  | .endsWith => .endsWith

@[inherit_doc ArithOp.kind]
def BoolOp.kind : BoolOp → Kind
  | .and => .andAnd
  | .or => .orOr

@[simp] theorem ArithOp.arithOp?_kind (op : ArithOp) : op.kind.arithOp? = some op := by
  cases op <;> rfl

@[simp] theorem RelOp.relOp?_kind (op : RelOp) : op.kind.relOp? = some op := by
  cases op <;> rfl

@[simp] theorem BoolOp.boolOp?_kind (op : BoolOp) : op.kind.boolOp? = some op := by
  cases op <;> rfl

/-- A word that is not reserved. -/
def isProperName (s : String) : Bool :=
  Scan.isWord s.toList && keywords.all fun entry => entry.1 != s

theorem word_of_isProperName {s : String} (h : isProperName s = true) :
    Scan.isWord s.toList = true ∧ keyword? s.toList = none := by
  obtain ⟨hword, hfree⟩ := Bool.and_eq_true_iff.mp h
  refine ⟨hword, keyword?_eq_none fun entry hentry => ?_⟩
  rw [String.ofList_toList]
  simpa using List.all_eq_true.mp hfree entry hentry

/-! ## Layout -/

/-- A mark between spaces. -/
def spaced (k : Kind) : List Piece := [.space, .fixed k, .space]

/-- The parts with commas in between. -/
def commas : List (List Piece) → List Piece
  | [] => []
  | [part] => part
  | part :: next :: parts => part ++ .fixed .comma :: .space :: commas (next :: parts)

/-- A number with its sign. -/
def signed (i : Int) : List Piece :=
  if i < 0 then [.fixed .minus, .number i.natAbs] else [.number i.natAbs]

/-- `tier.name`. -/
def Var.pieces (v : Var) : List Piece := [.fixed (.tier v.tier), .fixed .dot, .name v.name]

mutual

/-- Operands with operators in between. -/
def Expr.pieces : Expr → List Piece
  | ⟨[], _, _⟩ => []
  | ⟨t :: ts, ops, _⟩ => Term.pieces t ++ Term.morePieces ops ts

/-- An operand with its signs. -/
def Term.pieces : Term → List Piece
  | ⟨kind, true, negate, _⟩ => .fixed .not :: Term.Kind.pieces negate kind
  | ⟨kind, false, negate, _⟩ => Term.Kind.pieces negate kind

/-- An operand without its `!`. -/
def Term.Kind.pieces (negate : Bool) : Term.Kind → List Piece
  | .number n => signed n.toInt
  | .str s => [.str s]
  | .bool true => [.fixed .trueWord]
  | .bool false => [.fixed .falseWord]
  | .null => [.fixed .nullWord]
  | .var v => if negate then .fixed .minus :: v.pieces else v.pieces
  | .group e => .fixed .openParen :: (Expr.pieces e ++ [.fixed .closeParen])

/-- The operators and operands after the first operand. -/
def Term.morePieces : List ArithOp → List Term → List Piece
  | op :: ops, t :: ts => spaced op.kind ++ (Term.pieces t ++ Term.morePieces ops ts)
  | _, _ => []

end

/-- An expression, or two with a comparison in between. -/
def Condition.pieces (c : Condition) : List Piece :=
  c.left.pieces ++
    match c.comparison with
    | none => []
    | some (op, right) => spaced op.kind ++ right.pieces

/-- The operators and conditions after the first condition. -/
def Condition.morePieces : List BoolOp → List Condition → List Piece
  | op :: ops, c :: cs => spaced op.kind ++ (c.pieces ++ Condition.morePieces ops cs)
  | _, _ => []

/-- Conditions with operators in between. -/
def Conditions.pieces (c : Conditions) : List Piece :=
  match c.items with
  | [] => []
  | first :: rest => first.pieces ++ Condition.morePieces c.ops rest

/-- A call with its arguments. -/
def Call.pieces (c : Call) : List Piece :=
  .name c.name :: .fixed .openParen :: (commas (c.args.map Expr.pieces) ++ [.fixed .closeParen])

/-- The parameters from position `i` on, each with a mark that tells whether it is copied back. -/
def marked (outs : List Nat) : Nat → List String → List (Bool × String)
  | _, [] => []
  | i, p :: ps => (outs.contains i, p) :: marked outs (i + 1) ps

/-- A parameter with its mark. -/
def parameterPieces : Bool × String → List Piece
  | (true, p) => [.fixed .star, .name p]
  | (false, p) => [.name p]

mutual

/-- The functions of a block and then its statements, each on lines of its own. -/
def Block.lines : Block → List Piece
  | ⟨stmts, functions, _⟩ => FnDef.linesAll functions ++ Stmt.linesAll stmts

/-- `fn name(p, *q)`, the body and `end fn`. -/
def FnDef.pieces : FnDef → List Piece
  | ⟨name, params, outs, body, _⟩ =>
    .fixed .fnWord :: .space :: .name name :: .fixed .openParen ::
      (commas ((marked outs 0 params).map parameterPieces) ++
        .fixed .closeParen :: .newline ::
          (Block.lines body ++ [.fixed .endWord, .space, .fixed .fnWord]))

/-- A statement. -/
def Stmt.pieces : Stmt → List Piece
  | .block body => Block.braced body
  | .assign target value _ => target.pieces ++ (spaced .eq ++ value.pieces)
  | .ifElse condition body none _ =>
    .fixed .ifWord :: .space :: .fixed .openParen ::
      (condition.pieces ++ .fixed .closeParen :: .space :: Block.braced body)
  | .ifElse condition body (some otherwise) _ =>
    .fixed .ifWord :: .space :: .fixed .openParen ::
      (condition.pieces ++ .fixed .closeParen :: .space ::
        (Block.braced body ++ .space :: .fixed .elseWord :: .space :: Block.braced otherwise))
  | .whileLoop condition body _ =>
    .fixed .whileWord :: .space :: .fixed .openParen ::
      (condition.pieces ++ .fixed .closeParen :: .space :: Block.braced body)
  | .forLoop dest src body _ =>
    .fixed .forWord :: .space :: .fixed .openParen ::
      (dest.pieces ++ .fixed .semicolon :: .space ::
        (src.pieces ++ .fixed .closeParen :: .space :: Block.braced body))
  | .breakLoop _ => [.fixed .breakWord]
  | .endCode _ => [.fixed .endcodeWord]
  | .call c => c.pieces
  | .moduleCall module c => .name module :: .fixed .dot :: c.pieces

/-- A block in braces. -/
def Block.braced : Block → List Piece
  | ⟨stmts, functions, _⟩ =>
    .fixed .openBrace :: .newline ::
      (FnDef.linesAll functions ++ Stmt.linesAll stmts ++ [.fixed .closeBrace])

/-- Statements, one per line. -/
def Stmt.linesAll : List Stmt → List Piece
  | [] => []
  | s :: ss => Stmt.pieces s ++ .newline :: Stmt.linesAll ss

/-- Definitions, each on lines of its own. -/
def FnDef.linesAll : List FnDef → List Piece
  | [] => []
  | f :: fs => FnDef.pieces f ++ .newline :: FnDef.linesAll fs

end

theorem Block.braced_eq (b : Block) :
    b.braced = .fixed .openBrace :: .newline :: (b.lines ++ [.fixed .closeBrace]) := by
  cases b
  rfl

/-- The canonical text of a program. -/
def Block.text (b : Block) : List Char := Piece.text b.lines

/-! ## Programs without their spans -/

mutual

/-- The expression at no particular place. -/
def Expr.bare : Expr → Expr
  | ⟨terms, ops, _⟩ => ⟨Term.bareAll terms, ops, .first⟩

/-- The operand at no particular place. -/
def Term.bare : Term → Term
  | ⟨kind, invert, negate, _⟩ => ⟨Term.Kind.bare kind, invert, negate, .first⟩

@[inherit_doc Term.bare]
def Term.Kind.bare : Term.Kind → Term.Kind
  | .group e => .group (Expr.bare e)
  | .number n => .number n
  | .str s => .str s
  | .bool b => .bool b
  | .null => .null
  | .var v => .var v

@[inherit_doc Term.bare]
def Term.bareAll : List Term → List Term
  | [] => []
  | t :: ts => Term.bare t :: Term.bareAll ts

end

/-- The condition at no particular place. -/
def Condition.bare (c : Condition) : Condition :=
  ⟨c.left.bare, c.comparison.map fun r => (r.1, r.2.bare), .first⟩

@[inherit_doc Condition.bare]
def Conditions.bare (c : Conditions) : Conditions := ⟨c.items.map Condition.bare, c.ops, .first⟩

/-- The call at no particular place. -/
def Call.bare (c : Call) : Call := ⟨c.name, c.args.map Expr.bare, .first⟩

mutual

/-- The block at no particular place. -/
def Block.bare : Block → Block
  | ⟨stmts, functions, _⟩ => ⟨Stmt.bareAll stmts, FnDef.bareAll functions, .first⟩

/-- The definition at no particular place. -/
def FnDef.bare : FnDef → FnDef
  | ⟨name, params, outs, body, _⟩ => ⟨name, params, outs, Block.bare body, .first⟩

/-- The statement at no particular place. -/
def Stmt.bare : Stmt → Stmt
  | .block body => .block (Block.bare body)
  | .assign target value _ => .assign target value.bare .first
  | .ifElse condition body none _ => .ifElse condition.bare (Block.bare body) none .first
  | .ifElse condition body (some otherwise) _ =>
    .ifElse condition.bare (Block.bare body) (some (Block.bare otherwise)) .first
  | .whileLoop condition body _ => .whileLoop condition.bare (Block.bare body) .first
  | .forLoop dest src body _ => .forLoop dest.bare src.bare (Block.bare body) .first
  | .breakLoop _ => .breakLoop .first
  | .endCode _ => .endCode .first
  | .call c => .call c.bare
  | .moduleCall module c => .moduleCall module c.bare

@[inherit_doc Stmt.bare]
def Stmt.bareAll : List Stmt → List Stmt
  | [] => []
  | s :: ss => Stmt.bare s :: Stmt.bareAll ss

@[inherit_doc FnDef.bare]
def FnDef.bareAll : List FnDef → List FnDef
  | [] => []
  | f :: fs => FnDef.bare f :: FnDef.bareAll fs

end

end TierScript
