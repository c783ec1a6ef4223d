import TierScript.Source.Diagnostic
import TierScript.Text.Quoted

/-!
# Faults

The reasons for which a text is not a program. A `Complaint` names the reason; its code, wording and
suggestion are functions of it. A `Fault` is a complaint about a span, and becomes a `Diagnostic`
once the source it was found in is known.
-/

namespace TierScript

/-- Why a text is not a program. -/
inductive Complaint where
  /-- No token starts with this character. -/
  | strayCharacter (c : Char)
  /-- A `&` or `|` that is not doubled. -/
  | halfOperator (c : Char)
  /-- A block comment without its closing mark. -/
  | openComment
  /-- A string literal without its closing quote. -/
  | openString
  /-- A line end within a string literal. -/
  | brokenString
  /-- A backslash before a character that does not follow one. -/
  | badEscape (c : Char)
  /-- A numeric escape without its four hexadecimal digits. -/
  | badCodePoint
  /-- A numeral outside the range of 64-bit integers. -/
  | numberTooLarge (digits : String)
  /-- Another token was needed. -/
  | unexpected (expected found : String)
  /-- A closing brace that closes nothing. -/
  | strayCloseBrace
  /-- An opening brace that nothing closes. -/
  | openBrace
  /-- A qualified name followed by another dot. -/
  | secondDot (qualified : String)
  /-- A variable qualified by a word that is not a tier. -/
  | notATier (name : String)
  /-- A function body that runs into something other than its `end`. -/
  | missingEnd (function found : String)
  /-- An `end` outside a function body. -/
  | strayEnd
  deriving DecidableEq, Repr, Inhabited

namespace Complaint

/-- The number the complaint is reported under. -/
def code : Complaint → Code
  | strayCharacter _ | halfOperator _ => ⟨100⟩
  | openString | brokenString => ⟨101⟩
  | badEscape _ | badCodePoint => ⟨102⟩
  | openComment => ⟨103⟩
  | numberTooLarge _ => ⟨104⟩
  | unexpected _ _ => ⟨200⟩
  | openBrace => ⟨201⟩
  | strayCloseBrace => ⟨202⟩
  | secondDot _ | notATier _ => ⟨203⟩
  | missingEnd _ _ => ⟨204⟩
  | strayEnd => ⟨205⟩

/-- The wording of the complaint. -/
def message : Complaint → String
  | strayCharacter c => "unexpected character '" ++ Text.spell c ++ "'"
  | halfOperator c => "unexpected character '" ++ c.toString ++ "'"
  | openComment => "unterminated block comment"
  | openString => "unterminated string literal"
  | brokenString => "line break inside string literal"
  | badEscape c => "invalid escape sequence '\\" ++ Text.spell c ++ "'"
  | badCodePoint => "'\\u' must be followed by four hex digits"
  | numberTooLarge digits => "number '" ++ digits ++ "' does not fit in 64 bits"
  | unexpected expected found => "expected " ++ expected ++ ", got " ++ found
  | strayCloseBrace => "unexpected '\x7d' with no open block"
  | openBrace => "'\x7b' is never closed"
  | secondDot qualified =>
    "'" ++ qualified ++ "' is followed by another '.'; a name may contain only one '.'"
  | notATier name => "'" ++ name ++ "' is not a scope tier"
  | missingEnd function found =>
    "'end' expected to close function '" ++ function ++ "', got " ++ found
  | strayEnd => "'end' outside of a function definition"

/-- What could be written instead, where there is a simple answer. -/
def suggestion : Complaint → Option String
  | halfOperator c => some ("use '" ++ c.toString ++ c.toString ++ "'")
  | openComment => some "close the comment with './'"
  | strayCloseBrace => some "remove the extra '\x7d'"
  | openBrace => some "add a matching '\x7d'"
  | secondDot _ => some "qualify a name with a single tier or module prefix"
  | notATier _ => some "qualify variables with s, ss or sss"
  | missingEnd _ _ => some "finish the function with 'end fn'"
  | _ => none

end Complaint

/-- A complaint about a span. -/
structure Fault where
  complaint : Complaint
  span : Span
  deriving DecidableEq, Repr, Inhabited

/-- The report of a fault that was found in `source`. -/
def Fault.diagnose (fault : Fault) (source : Source) : Diagnostic :=
  .quoting source fault.complaint.code fault.complaint.message fault.span
    fault.complaint.suggestion

end TierScript
