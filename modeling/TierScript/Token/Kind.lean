import TierScript.Program.Operator

/-!
# Kinds of tokens
-/

namespace TierScript

/-- What a token is (`TokenKind`). -/
inductive Kind where
  | dot
  | comma
  | openParen
  | closeParen
  | openBrace
  | closeBrace
  | semicolon
  | andAnd
  | orOr
  | startsWith
  | endsWith
  | contains
  | eqEq
  | notEq
  | ltEq
  | gtEq
  | eq
  | not
  | lt
  | gt
  | plus
  | minus
  | star
  | slash
  | str
  | number
  | trueWord
  | falseWord
  | nullWord
  | tier (t : Tier)
  | ifWord
  | elseWord
  | whileWord
  | forWord
  | breakWord
  | endcodeWord
  | fnWord
  | endWord
  | identifier
  | comment
  | whitespace
  | newline
  | eof
  deriving DecidableEq, Repr, Inhabited

namespace Kind

/-- Comments, white space and line ends mean nothing to a program (`is_trivia`). -/
def isTrivia : Kind → Bool
  | comment | whitespace | newline => true
  | _ => false

/-- The arithmetic operator that a token of this kind spells (`arith_op`). -/
def arithOp? : Kind → Option ArithOp
  | plus => some .add
  | minus => some .sub
  | star => some .mul
  | slash => some .div
  | _ => none

/-- The comparison operator that a token of this kind spells (`rel_op`). -/
def relOp? : Kind → Option RelOp
  | eqEq => some .eq
  | notEq => some .notEq
  | lt => some .lt
  | gt => some .gt
  | ltEq => some .ltEq
  | gtEq => some .gtEq
  | startsWith => some .startsWith
  | contains => some .contains
  | endsWith => some .endsWith
  | _ => none

/-- The operator between conditions that a token of this kind spells (in `parse_conditional`). -/
def boolOp? : Kind → Option BoolOp
  | andAnd => some .and
  | orOr => some .or
  | _ => none

/-- The name of the kind in messages: its spelling where it has only one (`fmt` of `TokenKind`). -/
def render : Kind → String
  | dot => "."
  | comma => ","
  | openParen => "("
  | closeParen => ")"
  | openBrace => "\x7b"
  | closeBrace => "\x7d"
  | semicolon => ";"
  | andAnd => "&&"
  | orOr => "||"
  | startsWith => "?*"
  | endsWith => "*?"
  | contains => "?"
  | eqEq => "=="
  | notEq => "!="
  | ltEq => "<="
  | gtEq => ">="
  | eq => "="
  | not => "!"
  | lt => "<"
  | gt => ">"
  | plus => "+"
  | minus => "-"
  | star => "*"
  | slash => "/"
  | str => "string"
  | number => "number"
  | trueWord => "true"
  | falseWord => "false"
  | nullWord => "null"
  | tier t => t.word
  | ifWord => "if"
  | elseWord => "else"
  | whileWord => "while"
  | forWord => "for"
  | breakWord => "break"
  | endcodeWord => "endcode"
  | fnWord => "fn"
  | endWord => "end"
  | identifier => "identifier"
  | comment => "comment"
  | whitespace => "whitespace"
  | newline => "newline"
  | eof => "end of input"

end Kind

end TierScript
