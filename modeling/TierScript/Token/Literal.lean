import TierScript.Token.Scan

/-!
# The text of a string literal

`decode` turns the spelling of a string literal, quotes included, into the text it stands for.
It is total: a spelling that the scanner would refuse has a value too. An escape that names no
character stands for U+FFFD, a backslash at the end for itself.
-/

namespace TierScript.Literal

/-- The value of a hexadecimal digit (in `unescape`). -/
def hexValue? (c : Char) : Option Nat :=
  if '0' ≤ c ∧ c ≤ '9' then some (c.toNat - 48)
  else if 'a' ≤ c ∧ c ≤ 'f' then some (c.toNat - 87)
  else if 'A' ≤ c ∧ c ≤ 'F' then some (c.toNat - 55)
  else none

/-- The number with these hexadecimal digits, of which there is at least one (in `unescape`). -/
def hexNumber? : List Char → Option Nat
  | [] => none
  | cs => cs.foldl (fun acc c => acc.bind fun n => (hexValue? c).map (16 * n + ·)) (some 0)

/-- The number that follows `\u`; a plus sign may stand before its digits (in `unescape`). -/
def codePoint? : List Char → Option Nat
  | '+' :: cs => hexNumber? cs
  | cs => hexNumber? cs

/-- The character that `\u` followed by `digits` stands for (in `unescape`). -/
def charOfDigits (digits : List Char) : Char :=
  match codePoint? digits with
  | some n => if n.isValidChar then Char.ofNat n else '\ufffd'
  | none => '\ufffd'

/-- The character that a backslash and `c` stand for, where `c` is not `u` (in `unescape`). -/
def charOfEscape (c : Char) : Char :=
  if c = 'n' then '\n'
  else if c = 't' then '\t'
  else if c = 'r' then '\r'
  else if c = 'f' then '\x0c'
  else if c = 'b' then '\x08'
  else if c = '0' then '\x00'
  else c

/-- The text that the inside of a literal stands for (the loop of `unescape`). -/
def decodeBody : List Char → List Char
  | [] => []
  | c :: cs =>
    if c = '\x5c' then
      match cs with
      | [] => ['\x5c']
      | e :: es =>
        if e = 'u' then
          match es with
          | [] => ['\ufffd']
          | [h₁] => [charOfDigits [h₁]]
          | [h₁, h₂] => [charOfDigits [h₁, h₂]]
          | [h₁, h₂, h₃] => [charOfDigits [h₁, h₂, h₃]]
          | h₁ :: h₂ :: h₃ :: h₄ :: rest => charOfDigits [h₁, h₂, h₃, h₄] :: decodeBody rest
        else charOfEscape e :: decodeBody es
    else c :: decodeBody cs

/-- The literal without its quotes; a text that does not both start and end with one is left as it
    is (in `unescape`). -/
def inside (lexeme : List Char) : List Char :=
  match lexeme with
  | [] => []
  | c :: cs => if c = '\x22' ∧ cs.getLast? = some '\x22' then cs.dropLast else lexeme

/-- The text that a literal stands for (`unescape`). -/
def decode (lexeme : List Char) : List Char := decodeBody (inside lexeme)

end TierScript.Literal
