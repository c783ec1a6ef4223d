import TierScript.Token.Reader

/-!
# Taking tokens from a feed

A `Feed` is what is left of the tokens of a source. After its items comes its end: either the empty
token at the end of the text, which can be taken any number of times, or the fault that stopped the
reading, which only shows once the items before it are used up. `Parse` is the type of readers of a
feed, with three outcomes: a result, a fault, or exhausted fuel.
-/

namespace TierScript

/-- The tokens that are left, how they end, and the span of the last token taken. -/
structure Feed where
  items : List Token
  stop : Except Fault Token
  last : Span := .first
  deriving Repr

/-- The tokens of a text without its trivia (in `new`). -/
def Feed.ofText (text : List Char) : Feed :=
  let (items, stop) := (Reader.ofText text true).readAll
  { items, stop }

/-- The outcome of parsing (`ParseResult`). -/
inductive Reply (α : Type) where
  | done (value : α) (feed : Feed)
  | fault (fault : Fault)
  | exhausted

/-- A reader of a feed. -/
def Parse (α : Type) : Type := Feed → Reply α

namespace Parse

variable {α β : Type}

/-- Takes nothing. -/
protected def pure (a : α) : Parse α := fun feed => .done a feed

/-- One reader after another, up to the first that has no result. -/
protected def bind (p : Parse α) (f : α → Parse β) : Parse β := fun feed =>
  match p feed with
  | .done a feed' => f a feed'
  | .fault e => .fault e
  | .exhausted => .exhausted

instance : Monad Parse where
  pure := Parse.pure
  bind := Parse.bind

/-- Fails with a complaint about a span (`error_at`). -/
def refuse (complaint : Complaint) (span : Span) : Parse α := fun _ => .fault ⟨complaint, span⟩

/-- Fails because `token` is not what was needed (`unexpected`). -/
def unexpected (token : Token) (expected : String) : Parse α :=
  refuse (.unexpected expected token.describe) token.span

/-- Gives up for want of fuel. -/
def exhausted : Parse α := fun _ => .exhausted

/-- Takes the next token (`advance`). -/
def advance : Parse Token := fun feed =>
  match feed.items with
  | token :: rest => .done token { feed with items := rest, last := token.span }
  | [] =>
    match feed.stop with
    | .ok token => .done token { feed with last := token.span }
    | .error fault => .fault fault

/-- Looks at the next token without taking it (`peek`). -/
def peek : Parse Token := fun feed =>
  match feed.items with
  | token :: _ => .done token feed
  | [] =>
    match feed.stop with
    | .ok token => .done token feed
    | .error fault => .fault fault

/-- The span of the last token taken (`previous_span`). -/
def lastSpan : Parse Span := fun feed => .done feed.last feed

/-- Takes the next token if it is of the given kind, and tells whether it was (`eat`). -/
def eat (kind : Kind) : Parse Bool := do
  let token ← peek
  if token.kind = kind then
    let _ ← advance
    return true
  else return false

/-- Takes a token of the given kind (`expect`). -/
def expect (kind : Kind) : Parse Token := do
  let token ← advance
  if token.kind = kind then return token
  else unexpected token ("'" ++ kind.render ++ "'")

/-- Takes a word that is not reserved (`expect_identifier`). -/
def expectName : Parse Token := do
  let token ← advance
  if token.kind = .identifier then return token else unexpected token "identifier"

/-- Fails before a dot: `qualified` already has the one dot a name may have
    (`reject_second_dot`). -/
def rejectDot (qualified : String) : Parse Unit := do
  let token ← peek
  if token.kind = .dot then refuse (.secondDot qualified) token.span else return ()

/-! ### What the readers do to a feed -/

@[simp] theorem pure_apply (a : α) (feed : Feed) : (pure a : Parse α) feed = .done a feed := rfl

@[simp] theorem bind_apply (p : Parse α) (f : α → Parse β) (feed : Feed) :
    (p >>= f) feed = match p feed with
      | .done a feed' => f a feed'
      | .fault e => .fault e
      | .exhausted => .exhausted := rfl

end Parse

end TierScript
