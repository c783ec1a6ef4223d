import TierScript.Decimal.Binary64
import TierScript.Program.Basic
import TierScript.Program.Feed
import TierScript.Token.Literal

/-!
# Parsing programs

One function per rule of the grammar. The rules call each other, so each takes an amount of fuel and
passes on one less. `parse` supplies an amount that is linear in the number of tokens.

The first fault ends the parse. A lexical fault is found when the token it is in place of is needed,
so a fault in the structure of the program before it comes first.

The name in parentheses that follows a description is the function of the parser that the definition
models. Where that function takes a token and gives it back, the definition looks at the token and
leaves it where it is.
-/

namespace TierScript

namespace Parse

/-! ## Names and numbers -/

/-- The value of a numeral, with a minus sign before it if `negative` (`parse_number`). -/
def numeral (token : Token) (negative : Bool) : Parse Int64 :=
  let n := Nat.ofDigitChars 10 token.lexeme 0
  if negative then
    if n ≤ 2 ^ 63 then return Int64.ofInt (-(n : Int)) else tooLarge
  else
    if n < 2 ^ 63 then return Int64.ofNat n else tooLarge
where
  tooLarge : Parse Int64 := refuse (.numberTooLarge token.text) token.span

/-- The rest of a variable after its tier word: an optional dot and a name (in `parse_variable` and
    `parse_assignment`). -/
def tierVariable (tier : Tier) : Parse Var := do
  let _ ← eat .dot
  let name ← expectName
  rejectDot (tier.word ++ "." ++ name.text)
  return ⟨tier, name.text⟩

/-- The variable that starts with the given token, which has been taken: a tier word or the name of
    a variable of the innermost tier (`parse_variable`). -/
def variableFrom (token : Token) : Parse Var := do
  match token.kind with
  | .tier tier => tierVariable tier
  | .identifier =>
    let next ← peek
    if next.kind = .dot then refuse (.notATier token.text) next.span
    else return ⟨.loc, token.text⟩
  | _ => unexpected token "a variable"

/-! ## Expressions -/

mutual

/-- Operands with operators in between (`parse_expression`). -/
def expression : Nat → Parse Expr
  | 0 => exhausted
  | fuel + 1 => do
    let first ← term fuel
    let rest ← operands fuel
    return ⟨first :: rest.map Prod.snd, rest.map Prod.fst, first.span.merge (← lastSpan)⟩

/-- The operators and operands after the first operand (the loop of `parse_expression`). A `!`
    before an operator inverts the operand after it. -/
def operands : Nat → Parse (List (ArithOp × Term))
  | 0 => exhausted
  | fuel + 1 => do
    let token ← peek
    if token.kind = .not then
      let _ ← advance
      let opToken ← advance
      match opToken.kind.arithOp? with
      | some op =>
        let operand ← term fuel
        let rest ← operands fuel
        return (op, { operand with invert := !operand.invert }) :: rest
      | none => unexpected opToken "an operator after '!'"
    else
      match token.kind.arithOp? with
      | some op =>
        let _ ← advance
        let operand ← term fuel
        let rest ← operands fuel
        return (op, operand) :: rest
      | none => return []

/-- One operand: an optional `!`, then a literal, a variable, a negative number or variable, or an
    expression in parentheses (`parse_term`). -/
def term : Nat → Parse Term
  | 0 => exhausted
  | fuel + 1 => do
    let first ← advance
    if first.kind = .not then
      let token ← advance
      let (kind, negate) ← operand fuel token
      return ⟨kind, true, negate, first.span.merge (← lastSpan)⟩
    else
      let (kind, negate) ← operand fuel first
      return ⟨kind, false, negate, first.span.merge (← lastSpan)⟩

/-- What an operand is, and whether it is negated, given its first token after any `!` (in
    `parse_term`). -/
def operand : Nat → Token → Parse (Term.Kind × Bool)
  | 0, _ => exhausted
  | fuel + 1, token => do
    match token.kind with
    | .openParen =>
      let inner ← expression fuel
      let _ ← expect .closeParen
      return (.group inner, false)
    | .number => return (.number (← numeral token false), false)
    | .str => return (.str (String.ofList (Literal.decode token.lexeme)), false)
    | .trueWord => return (.bool true, false)
    | .falseWord => return (.bool false, false)
    | .nullWord => return (.null, false)
    | .tier _ | .identifier => return (.var (← variableFrom token), false)
    | .minus =>
      let next ← advance
      match next.kind with
      | .number => return (.number (← numeral next true), false)
      | .tier _ | .identifier => return (.var (← variableFrom next), true)
      | _ => unexpected next "a number or variable after '-'"
    | _ => unexpected token "a value"

end

/-! ## Conditions -/

/-- An expression, or two with a comparison in between (`parse_condition`). -/
def condition (fuel : Nat) : Parse Condition := do
  let left ← expression fuel
  let token ← peek
  match token.kind.relOp? with
  | some op =>
    let _ ← advance
    let right ← expression fuel
    return ⟨left, some (op, right), left.span.merge (← lastSpan)⟩
  | none => return ⟨left, none, left.span.merge (← lastSpan)⟩

/-- The operators and conditions after the first condition (the loop of `parse_conditional`). -/
def conditionsRest : Nat → Parse (List (BoolOp × Condition))
  | 0 => exhausted
  | fuel + 1 => do
    let token ← peek
    match token.kind.boolOp? with
    | some op =>
      let _ ← advance
      let next ← condition fuel
      let rest ← conditionsRest fuel
      return (op, next) :: rest
    | none => return []

/-- Conditions with operators in between (`parse_conditional`). -/
def conditions (fuel : Nat) : Parse Conditions := do
  let first ← condition fuel
  let rest ← conditionsRest fuel
  return ⟨first :: rest.map Prod.snd, rest.map Prod.fst, first.span.merge (← lastSpan)⟩

/-! ## Calls and parameters -/

/-- The arguments after the first, up to the closing parenthesis (the loop of `parse_args`). -/
def argumentsRest : Nat → Parse (List Expr)
  | 0 => exhausted
  | fuel + 1 => do
    let arg ← expression fuel
    let token ← advance
    match token.kind with
    | .comma => return arg :: (← argumentsRest fuel)
    | .closeParen => return [arg]
    | _ => unexpected token "',' or ')'"

/-- The arguments after an opening parenthesis, through the closing one (`parse_args`). -/
def arguments (fuel : Nat) : Parse (List Expr) := do
  if ← eat .closeParen then return [] else argumentsRest fuel

/-- The part of a module call after the module's name and the dot (`parse_module_call_tail`). -/
def moduleCallTail (fuel : Nat) (module : String) (start : Span) : Parse Stmt := do
  let name ← expectName
  rejectDot (module ++ "." ++ name.text)
  let _ ← expect .openParen
  let args ← arguments fuel
  return .moduleCall module ⟨name.text, args, start.merge (← lastSpan)⟩

/-- A call of a function or of a function of a module (`parse_call_stmt`). -/
def callStmt (fuel : Nat) : Parse Stmt := do
  let name ← expectName
  let next ← advance
  match next.kind with
  | .openParen =>
    let args ← arguments fuel
    return .call ⟨name.text, args, name.span.merge (← lastSpan)⟩
  | .dot => moduleCallTail fuel name.text name.span
  | _ => unexpected next ("'(' after '" ++ name.text ++ "'")

/-- The parameters after an opening parenthesis that is not closed at once, each with a mark that
    tells whether it is copied back (the loop of `parse_fn`). -/
def parametersRest : Nat → Parse (List (Bool × String))
  | 0 => exhausted
  | fuel + 1 => do
    let out ← eat .star
    let name ← expectName
    let token ← advance
    match token.kind with
    | .comma => return (out, name.text) :: (← parametersRest fuel)
    | .closeParen => return [(out, name.text)]
    | _ => unexpected token "',' or ')'"

/-- The parameters after an opening parenthesis, through the closing one (in `parse_fn`). -/
def parameters (fuel : Nat) : Parse (List (Bool × String)) := do
  if ← eat .closeParen then return [] else parametersRest fuel

/-- The positions of the marked parameters, counted from `index` on (in `parse_fn`). -/
def outPositions (index : Nat) : List (Bool × String) → List Nat
  | [] => []
  | (out, _) :: rest =>
    if out then index :: outPositions (index + 1) rest else outPositions (index + 1) rest

/-! ## Statements and blocks -/

/-- An assignment to a variable with a tier word (`parse_assignment`). -/
def assignment (fuel : Nat) : Parse Stmt := do
  let word ← advance
  match word.kind with
  | .tier tier =>
    let target ← tierVariable tier
    let _ ← expect .eq
    let value ← expression fuel
    return .assign target value (word.span.merge value.span)
  | _ => unexpected word "a scope tier"

/-- How a block may end (`BlockMode`). -/
inductive Enclosure where
  /-- A program ends with its text. -/
  | program
  /-- A block in braces ends with the closing brace. -/
  | braces
  /-- The body of a function ends before `end`. -/
  | function
  deriving DecidableEq, Repr

/-- What a block consists of. -/
inductive Item where
  | stmt (s : Stmt)
  | fn (f : FnDef)

/-- The statement that an item is. -/
def Item.stmt? : Item → Option Stmt
  | .stmt s => some s
  | .fn _ => none

/-- The function that an item defines. -/
def Item.fn? : Item → Option FnDef
  | .stmt _ => none
  | .fn f => some f

mutual

/-- The items of a block through its end (the loop of `parse_block`). `opening` is the span of what
    opened it. -/
def items : Nat → Enclosure → Span → Parse (List Item)
  | 0, _, _ => exhausted
  | fuel + 1, enclosure, opening => do
    let token ← peek
    match token.kind with
    | .openBrace =>
      let _ ← advance
      let inner ← block fuel .braces token.span
      return .stmt (.block inner) :: (← items fuel enclosure opening)
    | .closeBrace =>
      if enclosure = .braces then
        let _ ← advance
        return []
      else refuse .strayCloseBrace token.span
    | .tier _ =>
      let s ← assignment fuel
      return .stmt s :: (← items fuel enclosure opening)
    | .identifier =>
      let s ← callStmt fuel
      return .stmt s :: (← items fuel enclosure opening)
    | .ifWord =>
      let (s, _) ← ifStmt fuel
      return .stmt s :: (← items fuel enclosure opening)
    | .whileWord =>
      let s ← whileStmt fuel
      return .stmt s :: (← items fuel enclosure opening)
    | .forWord =>
      let s ← forStmt fuel
      return .stmt s :: (← items fuel enclosure opening)
    | .endcodeWord =>
      let _ ← advance
      return .stmt (.endCode token.span) :: (← items fuel enclosure opening)
    | .breakWord =>
      let _ ← advance
      return .stmt (.breakLoop token.span) :: (← items fuel enclosure opening)
    | .fnWord =>
      let _ ← advance
      let item ← fnItem fuel token.span
      return item :: (← items fuel enclosure opening)
    | .semicolon =>
      let _ ← advance
      items fuel enclosure opening
    | .eof => if enclosure = .braces then refuse .openBrace opening else return []
    | .endWord => if enclosure = .function then return [] else refuse .strayEnd token.span
    | _ => unexpected token "a statement"

/-- A block, after what opened it (`parse_block`). -/
def block : Nat → Enclosure → Span → Parse Block
  | 0, _, _ => exhausted
  | fuel + 1, enclosure, opening => do
    let found ← items fuel enclosure opening
    return ⟨found.filterMap Item.stmt?, found.filterMap Item.fn?, opening.merge (← lastSpan)⟩

/-- A block in braces (`parse_braced_body`). -/
def bracedBlock : Nat → Parse Block
  | 0 => exhausted
  | fuel + 1 => do
    let brace ← expect .openBrace
    block fuel .braces brace.span

/-- A conditional statement and its span (`parse_if`). -/
def ifStmt : Nat → Parse (Stmt × Span)
  | 0 => exhausted
  | fuel + 1 => do
    let word ← expect .ifWord
    let _ ← expect .openParen
    let test ← conditions fuel
    let _ ← expect .closeParen
    let body ← bracedBlock fuel
    let otherwise ← elseBranch fuel
    let span := word.span.merge (← lastSpan)
    return (.ifElse test body otherwise span, span)

/-- The part after the first branch of a conditional statement (in `parse_if`). A conditional
    statement after `else` counts as a block of that one statement. -/
def elseBranch : Nat → Parse (Option Block)
  | 0 => exhausted
  | fuel + 1 => do
    if ← eat .elseWord then
      let next ← peek
      match next.kind with
      | .ifWord =>
        let (nested, span) ← ifStmt fuel
        return some ⟨[nested], [], span⟩
      | .openBrace => return some (← bracedBlock fuel)
      | _ => unexpected next "'\x7b' or 'if' after 'else'"
    else return none

/-- A loop with a condition (`parse_while`). -/
def whileStmt : Nat → Parse Stmt
  | 0 => exhausted
  | fuel + 1 => do
    let word ← expect .whileWord
    let _ ← expect .openParen
    let test ← conditions fuel
    let _ ← expect .closeParen
    let body ← bracedBlock fuel
    return .whileLoop test body (word.span.merge (← lastSpan))

/-- A loop over a range or an array (`parse_for`). -/
def forStmt : Nat → Parse Stmt
  | 0 => exhausted
  | fuel + 1 => do
    let word ← expect .forWord
    let _ ← expect .openParen
    let dest ← term fuel
    let _ ← expect .semicolon
    let src ← term fuel
    let _ ← expect .closeParen
    let body ← bracedBlock fuel
    return .forLoop dest src body (word.span.merge (← lastSpan))

/-- What follows `fn`: the definition of a function, or a module call (`parse_fn`). -/
def fnItem : Nat → Span → Parse Item
  | 0, _ => exhausted
  | fuel + 1, start => do
    let name ← expectName
    let next ← advance
    match next.kind with
    | .dot => return .stmt (← moduleCallTail fuel name.text start)
    | .openParen =>
      let params ← parameters fuel
      let body ← block fuel .function start
      let last ← advance
      if last.kind = .endWord then
        let _ ← eat .fnWord
        return .fn ⟨name.text, params.map Prod.snd, outPositions 0 params, body,
          (start.merge last.span).merge (← lastSpan)⟩
      else refuse (.missingEnd name.text last.describe) last.span
    | _ => unexpected next ("'(' after 'fn " ++ name.text ++ "'")

end

/-- An amount of fuel that is enough for the given number of tokens. -/
def fuelFor (tokens : Nat) : Nat := 4 * tokens + 16

end Parse

/-- The program that a text spells, or the first fault (`parse_top_level`). -/
def parseText (text : List Char) : Reply Block :=
  let feed := Feed.ofText text
  Parse.block (Parse.fuelFor feed.items.length) .program .first feed

/-- The program that a source spells, or the report of the first fault (`parse_source`). -/
def parse (source : Source) : Except Diagnostic Block :=
  match parseText source.text with
  | .done program _ => .ok program
  | .fault fault => .error (fault.diagnose source)
  | .exhausted => .error (Fault.diagnose ⟨.openBrace, .first⟩ source)

end TierScript
