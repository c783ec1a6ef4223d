import TierScript.Program.Parser

/-!
# The grammar of programs

What sequences of tokens spell, said without a parser. `Spells ts p` relates the tokens `ts` to the
phrase `p` they stand for; there is one rule for each production:

* `program := item* EOF`
* `item := ';' | body | if | tier ['.'] NAME '=' expr | NAME ['.' NAME] arguments`
  `| fn NAME '.' NAME arguments | while '(' conds ')' body | for '(' term ';' term ')' body`
  `| break | endcode | fn NAME parameters item* end [fn]`
* `body := '{' item* '}'`
* `if := IF '(' conds ')' body [else (if | body)]`
* `conds := cond (('&&' | '||') cond)*`, `cond := expr [relop expr]`
* `expr := term (['!'] arithop term)*`
* `term := ['!'] ('(' expr ')' | literal | var | '-' (NUMBER | var))`
* `var := tier ['.'] NAME | NAME`

The one thing that the productions leave open is whether a `fn` after `end` belongs to the `end`. It
always does: a definition without it is not followed by `fn`.
-/

namespace TierScript

open Parse (Item outPositions)

/-! ## Spans of phrases -/

/-- The span of the first of the tokens. -/
def firstSpanOf : List Token → Span
  | [] => .first
  | t :: _ => t.span

/-- The span of the last of the tokens, `before` if there are none. -/
def lastSpanOf (before : Span) (ts : List Token) : Span := ts.foldl (fun _ t => t.span) before

/-- The span from `s` through the last of the tokens. -/
def Span.through (s : Span) (ts : List Token) : Span := s.merge (lastSpanOf s ts)

@[simp] theorem lastSpanOf_nil (s : Span) : lastSpanOf s [] = s := rfl

@[simp] theorem lastSpanOf_cons (s : Span) (t : Token) (ts : List Token) :
    lastSpanOf s (t :: ts) = lastSpanOf t.span ts := rfl

@[simp] theorem lastSpanOf_append (s : Span) (xs ys : List Token) :
    lastSpanOf s (xs ++ ys) = lastSpanOf (lastSpanOf s xs) ys := List.foldl_append

/-- What came before does not matter for tokens that are there. -/
theorem lastSpanOf_eq {ts : List Token} (h : ts ≠ []) (s s' : Span) :
    lastSpanOf s ts = lastSpanOf s' ts := by
  cases ts with
  | nil => exact absurd rfl h
  | cons t ts => rfl

/-! ## Phrases -/

/-- The number that the digits of a token are. -/
def Token.magnitude (t : Token) : Int := (Nat.ofDigitChars 10 t.lexeme 0 : Nat)

/-- The block that items make: the statements and the functions among them, each in order. -/
def Block.ofItems (l : List Item) (span : Span) : Block :=
  ⟨l.filterMap Item.stmt?, l.filterMap Item.fn?, span⟩

/-- What tokens can stand for. -/
inductive Phrase where
  /-- A variable with a tier word. -/
  | tierVar (v : Var)
  | var (v : Var)
  /-- An operand without its `!`, and whether it is negated. -/
  | operand (kind : Term.Kind) (negate : Bool)
  | term (t : Term)
  /-- The operators and operands after the first operand. -/
  | operands (l : List (ArithOp × Term))
  | expr (e : Expr)
  | cond (c : Condition)
  /-- The operators and conditions after the first condition. -/
  | moreConds (l : List (BoolOp × Condition))
  | conds (c : Conditions)
  /-- At least one argument, through the closing parenthesis. -/
  | moreArguments (l : List Expr)
  /-- What follows the opening parenthesis of a call. -/
  | arguments (l : List Expr)
  /-- At least one parameter, through the closing parenthesis. -/
  | moreParameters (l : List (Bool × String))
  /-- What follows the opening parenthesis of a definition. -/
  | parameters (l : List (Bool × String))
  /-- A block in braces. -/
  | body (b : Block)
  /-- A conditional statement and its span. -/
  | ifStmt (s : Stmt) (span : Span)
  /-- What follows the first branch of a conditional statement. -/
  | otherwise (b : Option Block)
  /-- A statement or a definition; `bare` tells that a `fn` after it would be part of it. -/
  | item (x : Item) (bare : Bool)
  | items (l : List Item)

/-- The tokens spell the phrase. -/
inductive Spells : List Token → Phrase → Prop where
  -- Variables
  | tierName {w n tier} : w.kind = .tier tier → n.kind = .identifier →
      Spells [w, n] (.tierVar ⟨tier, n.text⟩)
  | tierDotName {w d n tier} : w.kind = .tier tier → d.kind = .dot → n.kind = .identifier →
      Spells [w, d, n] (.tierVar ⟨tier, n.text⟩)
  | tierVar {ts v} : Spells ts (.tierVar v) → Spells ts (.var v)
  | name {n} : n.kind = .identifier → Spells [n] (.var ⟨.loc, n.text⟩)
  -- Operands
  | group {o ts e c} : o.kind = .openParen → Spells ts (.expr e) → c.kind = .closeParen →
      Spells (o :: (ts ++ [c])) (.operand (.group e) false)
  | number {t n} : t.kind = .number → n.toInt = t.magnitude →
      Spells [t] (.operand (.number n) false)
  | negativeNumber {m t n} : m.kind = .minus → t.kind = .number → n.toInt = -t.magnitude →
      Spells [m, t] (.operand (.number n) false)
  | str {t} : t.kind = .str →
      Spells [t] (.operand (.str (String.ofList (Literal.decode t.lexeme))) false)
  | trueWord {t} : t.kind = .trueWord → Spells [t] (.operand (.bool true) false)
  | falseWord {t} : t.kind = .falseWord → Spells [t] (.operand (.bool false) false)
  | nullWord {t} : t.kind = .nullWord → Spells [t] (.operand .null false)
  | var {ts v} : Spells ts (.var v) → Spells ts (.operand (.var v) false)
  | negativeVar {m ts v} : m.kind = .minus → Spells ts (.var v) →
      Spells (m :: ts) (.operand (.var v) true)
  -- Expressions
  | term {ts kind negate} : Spells ts (.operand kind negate) →
      Spells ts (.term ⟨kind, false, negate, (firstSpanOf ts).through ts⟩)
  | invertedTerm {n ts kind negate} : n.kind = .not → Spells ts (.operand kind negate) →
      Spells (n :: ts) (.term ⟨kind, true, negate, n.span.through ts⟩)
  | noOperands : Spells [] (.operands [])
  | operand {o t x r rest op} : o.kind.arithOp? = some op → Spells t (.term x) →
      Spells r (.operands rest) → Spells (o :: (t ++ r)) (.operands ((op, x) :: rest))
  | invertedOperand {n o t x r rest op} : n.kind = .not → o.kind.arithOp? = some op →
      Spells t (.term x) → Spells r (.operands rest) →
      Spells (n :: o :: (t ++ r)) (.operands ((op, { x with invert := !x.invert }) :: rest))
  | expr {t first r rest} : Spells t (.term first) → Spells r (.operands rest) →
      Spells (t ++ r) (.expr
        ⟨first :: rest.map Prod.snd, rest.map Prod.fst, first.span.through (t ++ r)⟩)
  -- Conditions
  | test {ts e} : Spells ts (.expr e) → Spells ts (.cond ⟨e, none, e.span.through ts⟩)
  | comparison {l left o op r right} : Spells l (.expr left) → o.kind.relOp? = some op →
      Spells r (.expr right) →
      Spells (l ++ o :: r) (.cond ⟨left, some (op, right), left.span.through r⟩)
  | noConds : Spells [] (.moreConds [])
  | nextCond {o op c x r rest} : o.kind.boolOp? = some op → Spells c (.cond x) →
      Spells r (.moreConds rest) → Spells (o :: (c ++ r)) (.moreConds ((op, x) :: rest))
  | conds {c first r rest} : Spells c (.cond first) → Spells r (.moreConds rest) →
      Spells (c ++ r) (.conds
        ⟨first :: rest.map Prod.snd, rest.map Prod.fst, first.span.through (c ++ r)⟩)
  -- Arguments and parameters
  | lastArgument {ts e c} : Spells ts (.expr e) → c.kind = .closeParen →
      Spells (ts ++ [c]) (.moreArguments [e])
  | nextArgument {ts e c r l} : Spells ts (.expr e) → c.kind = .comma →
      Spells r (.moreArguments l) → Spells (ts ++ c :: r) (.moreArguments (e :: l))
  | noArguments {c} : c.kind = .closeParen → Spells [c] (.arguments [])
  | someArguments {ts l} : Spells ts (.moreArguments l) → Spells ts (.arguments l)
  | lastParameter {n c} : n.kind = .identifier → c.kind = .closeParen →
      Spells [n, c] (.moreParameters [(false, n.text)])
  | nextParameter {n c r l} : n.kind = .identifier → c.kind = .comma →
      Spells r (.moreParameters l) → Spells (n :: c :: r) (.moreParameters ((false, n.text) :: l))
  | lastOut {s n c} : s.kind = .star → n.kind = .identifier → c.kind = .closeParen →
      Spells [s, n, c] (.moreParameters [(true, n.text)])
  | nextOut {s n c r l} : s.kind = .star → n.kind = .identifier → c.kind = .comma →
      Spells r (.moreParameters l) →
      Spells (s :: n :: c :: r) (.moreParameters ((true, n.text) :: l))
  | noParameters {c} : c.kind = .closeParen → Spells [c] (.parameters [])
  | someParameters {ts l} : Spells ts (.moreParameters l) → Spells ts (.parameters l)
  -- Statements
  | assign {v target q e value} : Spells v (.tierVar target) → q.kind = .eq →
      Spells e (.expr value) →
      Spells (v ++ q :: e)
        (.item (.stmt (.assign target value ((firstSpanOf v).merge value.span))) false)
  | call {n o a args} : n.kind = .identifier → o.kind = .openParen →
      Spells a (.arguments args) →
      Spells (n :: o :: a) (.item (.stmt (.call ⟨n.text, args, n.span.through a⟩)) false)
  | moduleCall {m d n o a args} : m.kind = .identifier → d.kind = .dot → n.kind = .identifier →
      o.kind = .openParen → Spells a (.arguments args) →
      Spells (m :: d :: n :: o :: a)
        (.item (.stmt (.moduleCall m.text ⟨n.text, args, m.span.through a⟩)) false)
  | fnModuleCall {f m d n o a args} : f.kind = .fnWord → m.kind = .identifier → d.kind = .dot →
      n.kind = .identifier → o.kind = .openParen → Spells a (.arguments args) →
      Spells (f :: m :: d :: n :: o :: a)
        (.item (.stmt (.moduleCall m.text ⟨n.text, args, f.span.through a⟩)) false)
  | breakLoop {t} : t.kind = .breakWord → Spells [t] (.item (.stmt (.breakLoop t.span)) false)
  | endCode {t} : t.kind = .endcodeWord → Spells [t] (.item (.stmt (.endCode t.span)) false)
  | block {ts b} : Spells ts (.body b) → Spells ts (.item (.stmt (.block b)) false)
  | ifItem {ts s span} : Spells ts (.ifStmt s span) → Spells ts (.item (.stmt s) false)
  | whileLoop {w o c x p b body} : w.kind = .whileWord → o.kind = .openParen →
      Spells c (.conds x) → p.kind = .closeParen → Spells b (.body body) →
      Spells (w :: o :: (c ++ p :: b))
        (.item (.stmt (.whileLoop x body (w.span.through b))) false)
  | forLoop {w o d dest m s src p b body} : w.kind = .forWord → o.kind = .openParen →
      Spells d (.term dest) → m.kind = .semicolon → Spells s (.term src) →
      p.kind = .closeParen → Spells b (.body body) →
      Spells (w :: o :: (d ++ m :: (s ++ p :: b)))
        (.item (.stmt (.forLoop dest src body (w.span.through b))) false)
  | ifStmt {w o c x p b body r alternative} : w.kind = .ifWord → o.kind = .openParen →
      Spells c (.conds x) → p.kind = .closeParen → Spells b (.body body) →
      Spells r (.otherwise alternative) →
      Spells (w :: o :: (c ++ p :: (b ++ r)))
        (.ifStmt (.ifElse x body alternative (w.span.through (b ++ r))) (w.span.through (b ++ r)))
  | noElse : Spells [] (.otherwise none)
  | elseIf {e ts s span} : e.kind = .elseWord → Spells ts (.ifStmt s span) →
      Spells (e :: ts) (.otherwise (some ⟨[s], [], span⟩))
  | elseBody {e ts b} : e.kind = .elseWord → Spells ts (.body b) →
      Spells (e :: ts) (.otherwise (some b))
  | body {o ts l c} : o.kind = .openBrace → Spells ts (.items l) → c.kind = .closeBrace →
      Spells (o :: (ts ++ [c])) (.body (.ofItems l (o.span.through (ts ++ [c]))))
  -- Definitions
  | fnEnd {f n o ps params is l e} : f.kind = .fnWord → n.kind = .identifier →
      o.kind = .openParen → Spells ps (.parameters params) → Spells is (.items l) →
      e.kind = .endWord →
      Spells (f :: n :: o :: (ps ++ (is ++ [e])))
        (.item (.fn ⟨n.text, params.map Prod.snd, outPositions 0 params,
          .ofItems l (f.span.through (ps ++ is)), (f.span.merge e.span).merge e.span⟩) true)
  | fnEndFn {f n o ps params is l e g} : f.kind = .fnWord → n.kind = .identifier →
      o.kind = .openParen → Spells ps (.parameters params) → Spells is (.items l) →
      e.kind = .endWord → g.kind = .fnWord →
      Spells (f :: n :: o :: (ps ++ (is ++ [e, g])))
        (.item (.fn ⟨n.text, params.map Prod.snd, outPositions 0 params,
          .ofItems l (f.span.through (ps ++ is)), (f.span.merge e.span).merge g.span⟩) false)
  -- Items in order
  | noItems : Spells [] (.items [])
  | semicolon {s r l} : s.kind = .semicolon → Spells r (.items l) → Spells (s :: r) (.items l)
  | nextItem {ts x bare r l} : Spells ts (.item x bare) → Spells r (.items l) →
      (bare = true → ∀ t ∈ r.head?, t.kind ≠ .fnWord) → Spells (ts ++ r) (.items (x :: l))

/-- The tokens of a text spell the program. -/
def SpellsProgram (ts : List Token) (b : Block) : Prop :=
  ∃ us e l, ts = us ++ [e] ∧ e.kind = .eof ∧ Spells us (.items l) ∧
    b = .ofItems l (Span.first.through us)

end TierScript
