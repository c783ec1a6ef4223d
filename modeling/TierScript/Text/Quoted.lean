import TierScript.Text.Hidden

/-!
# Characters and texts inside messages

Two ways of making a text visible on one line. `spell` writes a single character with ASCII only;
`quote` encloses a text in double quotes and writes by number only what is not shown as itself.
-/

namespace TierScript.Text

/-- The lower-case hexadecimal digits of `n`, without leading zeros. -/
def hex (n : Nat) : List Char :=
  Nat.toDigits 16 n

/-- A character by number: its hexadecimal code point in braces after a backslash and a `u`. -/
def byNumber (c : Char) : List Char :=
  ['\\', 'u', '\x7b'] ++ hex c.toNat ++ ['\x7d']

/-- The letter that stands for `c` after a backslash, for the six characters that have one in
    every message. -/
def shorthand? (c : Char) : Option Char :=
  if c = '\t' then some 't'
  else if c = '\r' then some 'r'
  else if c = '\n' then some 'n'
  else if c = '\x27' then some c
  else if c = '\x22' then some c
  else if c = '\x5c' then some c
  else none

/-- `c` with ASCII characters only: a shorthand, the character itself if it is printable ASCII,
    or its number. -/
def spell (c : Char) : String :=
  match shorthand? c with
  | some x => String.ofList ['\\', x]
  | none => if 0x20 ≤ c.toNat ∧ c.toNat ≤ 0x7e then c.toString else String.ofList (byNumber c)

/-- The form of one character between double quotes: NUL and the shorthands are escaped, an
    apostrophe stands for itself, and hidden characters are given by number. -/
def quoteChar (c : Char) : List Char :=
  if c = '\x00' then ['\\', '0']
  else if c = '\x27' then [c]
  else match shorthand? c with
    | some x => ['\\', x]
    | none => if isHidden c then byNumber c else [c]

/-- The text in double quotes. -/
def quote (s : String) : String :=
  String.ofList ('\x22' :: s.toList.flatMap quoteChar ++ ['\x22'])

end TierScript.Text
