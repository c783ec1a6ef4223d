import TierScript.Source.Fault
import TierScript.Text.Letter
import TierScript.Text.Numeral
import TierScript.Token.Keyword

/-!
# Scanning one token

`scan` reads the first token of a text. It gives the kind of the token and the number of its
characters, or the reason why no token starts there. Three rules look beyond the token itself:

* a tier word counts as one only before a dot or a word, `if`, `while` and `for` only before an
  opening parenthesis, with blanks allowed in between; otherwise they are ordinary words;
* `s` directly before one of `+ - * / 2` and an opening parenthesis is part of a function's name;
* a dot in the first column starts a comment.
-/

namespace TierScript

/-- Why no token starts here, and how many bytes of the text the complaint is about (`error`). -/
structure Misread where
  complaint : Complaint
  extent : Nat
  deriving DecidableEq, Repr, Inhabited

namespace Scan

/-- Space, tab and form feed (`is_blank`). -/
def isGap (c : Char) : Bool := c == ' ' || c == '\t' || c == '\x0c'

/-- Whether a word may start with `c` (`is_ident_start`). -/
def isWordStart (c : Char) : Bool := Text.isLetter c || c == '_' || c == '$'

/-- Whether a word may go on with `c` (`is_ident_part`). -/
def isWordPart (c : Char) : Bool :=
  Text.isLetter c || Text.isNumeral c || c == '_' || c == '$'

/-- Whether `c` is a hexadecimal digit (in `scan_string`). -/
def isHexDigit (c : Char) : Bool :=
  ('0' ≤ c && c ≤ '9') || ('a' ≤ c && c ≤ 'f') || ('A' ≤ c && c ≤ 'F')

/-- The characters that may follow a backslash on their own (in `scan_string`). -/
def isShortEscape (c : Char) : Bool :=
  ['n', 't', 'r', 'f', 'b', '0', '\x22', '\x27', '\x5c'].contains c

/-- The first character after any blanks (`skip_blanks_from`). -/
def afterGap (cs : List Char) : Option Char := (cs.dropWhile isGap).head?

/-- Two characters of kind `double` if `second` follows, one of kind `single` otherwise
    (`operator_two`). `rest` is the text after the first character. -/
def oneOrTwo (rest : List Char) (second : Char) (single double : Kind) : Kind × Nat :=
  if rest.head? = some second then (double, 2) else (single, 1)

/-- The number of characters up to the next line end (`scan_line_comment`). -/
def lineLength (cs : List Char) : Nat := (cs.takeWhile fun c => !Source.isLineEnd c).length

/-- The number of characters up to and including the first `./` (`scan_block_comment`). -/
def commentEnd? : List Char → Option Nat
  | [] => none
  | c :: cs =>
    if c = '.' ∧ cs.head? = some '/' then some 2 else (commentEnd? cs).map (· + 1)

/-- The length of a string literal whose body starts here (`scan_string`). `bytes` and `count` are
    the bytes and the characters of the body so far. -/
def stringLength (bytes count : Nat) : List Char → Except Misread Nat
  | [] => .error ⟨.openString, bytes + 1⟩
  | c :: cs =>
    if c = '\x22' then .ok (count + 2)
    else if Source.isLineEnd c then .error ⟨.brokenString, bytes + 1⟩
    else if c = '\x5c' then
      match cs with
      | [] => .error ⟨.openString, bytes + 2⟩
      | e :: es =>
        if isShortEscape e then stringLength (bytes + 2) (count + 2) es
        else if e = 'u' then
          match es with
          | h₁ :: h₂ :: h₃ :: h₄ :: rest =>
            if isHexDigit h₁ && isHexDigit h₂ && isHexDigit h₃ && isHexDigit h₄ then
              stringLength (bytes + 6) (count + 6) rest
            else .error ⟨.badCodePoint, bytes + 3⟩
          | _ => .error ⟨.badCodePoint, bytes + 3⟩
        else .error ⟨.badEscape e, bytes + 3⟩
    else stringLength (bytes + c.utf8Size) (count + 1) cs

/-- Whether the text after an `s` makes it the name of an arithmetic function (`is_arith_name`). -/
def isArithName (after : List Char) : Bool :=
  match after with
  | c :: cs => ['2', '+', '-', '*', '/'].contains c && afterGap cs == some '('
  | [] => false

/-- The kind of the word `word` before the text `after`, and how many characters after the word
    belong to the token (in `scan_identifier`). -/
def wordKind (word after : List Char) : Kind × Nat :=
  match keyword? word with
  | some (.tier t) =>
    if word = ['s'] ∧ isArithName after then (.identifier, 1)
    else match afterGap after with
      | some c => if c = '.' || isWordStart c then (.tier t, 0) else (.identifier, 0)
      | none => (.identifier, 0)
  | some .ifWord => if afterGap after = some '(' then (.ifWord, 0) else (.identifier, 0)
  | some .whileWord => if afterGap after = some '(' then (.whileWord, 0) else (.identifier, 0)
  | some .forWord => if afterGap after = some '(' then (.forWord, 0) else (.identifier, 0)
  | some kind => (kind, 0)
  | none => (.identifier, 0)

/-- A word at the start of the text (`scan_identifier`). -/
def scanWord (cs : List Char) : Kind × Nat :=
  let word := cs.takeWhile isWordPart
  let (kind, extra) := wordKind word (cs.drop word.length)
  (kind, word.length + extra)

end Scan

open Scan in
/-- The kind and the number of characters of the first token of a text; `firstColumn` tells whether
    the text starts in the first column of its line (`scan`). At the end of the text there is an
    empty token. -/
def scan (firstColumn : Bool) : List Char → Except Misread (Kind × Nat)
  | [] => .ok (.eof, 0)
  | c :: cs =>
    if isGap c then .ok (.whitespace, ((c :: cs).takeWhile isGap).length)
    else if c = '\n' then .ok (.newline, 1)
    else if c = '\r' then .ok (oneOrTwo cs '\n' .newline .newline)
    else if c = '.' then
      if firstColumn then .ok (.comment, lineLength (c :: cs)) else .ok (.dot, 1)
    else if c = ',' then .ok (.comma, 1)
    else if c = ';' then .ok (.semicolon, 1)
    else if c = '(' then .ok (.openParen, 1)
    else if c = ')' then .ok (.closeParen, 1)
    else if c = '\x7b' then .ok (.openBrace, 1)
    else if c = '\x7d' then .ok (.closeBrace, 1)
    else if c = '&' then
      if cs.head? = some '&' then .ok (.andAnd, 2) else .error ⟨.halfOperator c, 1⟩
    else if c = '|' then
      if cs.head? = some '|' then .ok (.orOr, 2) else .error ⟨.halfOperator c, 1⟩
    else if c = '?' then .ok (oneOrTwo cs '*' .contains .startsWith)
    else if c = '*' then .ok (oneOrTwo cs '?' .star .endsWith)
    else if c = '=' then .ok (oneOrTwo cs '=' .eq .eqEq)
    else if c = '!' then .ok (oneOrTwo cs '=' .not .notEq)
    else if c = '<' then .ok (oneOrTwo cs '=' .lt .ltEq)
    else if c = '>' then .ok (oneOrTwo cs '=' .gt .gtEq)
    else if c = '+' then .ok (.plus, 1)
    else if c = '-' then .ok (.minus, 1)
    else if c = '/' then
      if cs.head? = some '/' then .ok (.comment, lineLength (c :: cs))
      else if cs.head? = some '.' then
        match commentEnd? (cs.drop 1) with
        | some n => .ok (.comment, n + 2)
        | none => .error ⟨.openComment, 2⟩
      else .ok (.slash, 1)
    else if c = '\x22' then (stringLength 0 0 cs).map fun n => (.str, n)
    else if c.isDigit then .ok (.number, ((c :: cs).takeWhile Char.isDigit).length)
    else if isWordStart c then .ok (scanWord (c :: cs))
    else .error ⟨.strayCharacter c, c.utf8Size⟩

end TierScript
