import TierScript.Token.Scan

/-!
# Reading tokens one at a time

A `Reader` stands in a text, behind the last token it returned. It can give back any number of
bytes at the end of that token, after which the next token is read from there. `Reader.readAll`
reads until the end of the text or the first fault. The name in parentheses that follows a
description is the function of the reader that the definition models.
-/

namespace TierScript

/-- A token: its kind, its characters, the byte offset it starts at, and its span. -/
structure Token where
  kind : Kind
  lexeme : List Char
  offset : Nat
  span : Span
  deriving DecidableEq, Repr, Inhabited

namespace Token

/-- The characters of the token as a string. -/
def text (t : Token) : String := String.ofList t.lexeme

/-- How a token is named in messages (`describe`). -/
def describe (t : Token) : String :=
  match t.kind with
  | .eof => "end of input"
  | .identifier | .number | .str => t.kind.render ++ " '" ++ t.text ++ "'"
  | kind => "'" ++ kind.render ++ "'"

end Token

namespace Position

/-- The position after the characters `cs`, when `next` is the character that follows them (in
    `commit`). -/
def after (p : Position) (next : Option Char) : List Char → Position
  | [] => p
  | c :: cs => after (p.next (endsLine c (cs.head?.or next))) next cs

/-- The position of the last of the characters of a token that starts at `p` (in `span_of`). Within
    a token only a line feed ends a line. -/
def lastOf (p : Position) : List Char → Position
  | [] => p
  | [_] => p
  | c :: d :: cs => lastOf (p.next (c == '\n')) (d :: cs)

end Position

/-- The span of the characters `cs` from `p` on (`span_of`). -/
def Span.ofText (p : Position) (cs : List Char) : Span := ⟨p, p.lastOf cs⟩

/-- A place in a text (`Lexer`). `held` is what is kept of the last token, `ahead` the text after
    it; `offset` and `position` are those of the first character of `held`. -/
structure Reader where
  held : List Char := []
  ahead : List Char
  offset : Nat := 0
  position : Position := .first
  skipTrivia : Bool := false
  deriving DecidableEq, Repr, Inhabited

namespace Reader

/-- A reader at the start of a text (`new` and `skipping_trivia`). -/
def ofText (text : List Char) (skipTrivia : Bool) : Reader :=
  { ahead := text, skipTrivia := skipTrivia }

/-- Moves past the last token (`commit`). -/
def commit (r : Reader) : Reader :=
  { r with
    held := []
    offset := r.offset + Text.byteLength r.held
    position := r.position.after r.ahead.head? r.held }

/-- Reads one token, trivia included (in `next_token`). -/
def step (r : Reader) : Except Fault Token × Reader :=
  let r := r.commit
  match scan (r.position.col == 1) r.ahead with
  | .error m =>
    (.error ⟨m.complaint, .ofText r.position (Text.takeBytes m.extent r.ahead)⟩, r)
  | .ok (kind, n) =>
    let lexeme := r.ahead.take n
    (.ok ⟨kind, lexeme, r.offset, .ofText r.position lexeme⟩,
      { r with held := lexeme, ahead := r.ahead.drop n })

/-- Reads one token, looking at no more than `fuel` tokens (the loop of `next_token`). -/
def nextWithin : Nat → Reader → Except Fault Token × Reader
  | 0, r => r.step
  | fuel + 1, r =>
    match r.step with
    | (.error fault, r') => (.error fault, r')
    | (.ok token, r') =>
      if r.skipTrivia && token.kind.isTrivia then nextWithin fuel r' else (.ok token, r')

/-- Reads the next token, passing over trivia if the reader skips it (`next_token`). -/
def next (r : Reader) : Except Fault Token × Reader :=
  r.nextWithin (r.ahead.length + 1)

/-- Gives back the last `n` bytes of the last token (`push_back`). A count that falls inside a
    character gives back the whole character. -/
def pushBack (r : Reader) (n : Nat) : Reader :=
  let keep := Text.byteLength r.held - n
  { r with
    held := Text.takeBytes keep r.held
    ahead := Text.dropBytes keep r.held ++ r.ahead }

/-- Gives back the whole of the token that was read last (`unread`). -/
def unread (r : Reader) (token : Token) : Reader :=
  r.pushBack (Text.byteLength token.lexeme)

/-- The tokens up to the end of the text or the first fault, and that end or fault (the loop of
    `tokenize`). -/
def readWithin : Nat → Reader → List Token × Except Fault Token
  | 0, r => ([], r.next.1)
  | fuel + 1, r =>
    match r.next with
    | (.error fault, _) => ([], .error fault)
    | (.ok token, r') =>
      if token.kind = .eof then ([], .ok token)
      else
        let (tokens, stop) := readWithin fuel r'
        (token :: tokens, stop)

/-- Reads to the end: the tokens before it, and the last, empty token or the fault that was met (in
    `tokenize`). -/
def readAll (r : Reader) : List Token × Except Fault Token :=
  r.readWithin (r.held.length + r.ahead.length + 1)

end Reader

/-- All tokens of a text, trivia included, the last being the empty token at its end
    (`tokenize`). -/
def tokenize (text : List Char) : Except Fault (List Token) :=
  match (Reader.ofText text false).readAll with
  | (tokens, .ok last) => .ok (tokens ++ [last])
  | (_, .error fault) => .error fault

end TierScript
