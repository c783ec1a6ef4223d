import TierScript.Text.Quoted

/-!
# Writing JSON strings
-/

namespace TierScript.Json

/-- A character of a string: quotes and backslashes are escaped, controls have a short escape or
    four hexadecimal digits, and everything else stands for itself. -/
def escapeChar (c : Char) : List Char :=
  if c = '\x22' ∨ c = '\x5c' then ['\x5c', c]
  else if c = '\x08' then ['\x5c', 'b']
  else if c = '\x0c' then ['\x5c', 'f']
  else if c = '\n' then ['\x5c', 'n']
  else if c = '\r' then ['\x5c', 'r']
  else if c = '\t' then ['\x5c', 't']
  else if c.toNat < 0x20 then
    let digits := Text.hex c.toNat
    ['\x5c', 'u'] ++ List.replicate (4 - digits.length) '0' ++ digits
  else [c]

/-- A text as a JSON string. -/
def writeString (cs : List Char) : List Char :=
  '\x22' :: cs.flatMap escapeChar ++ ['\x22']

/-- A natural number. -/
def writeNat (n : Nat) : List Char := Nat.toDigits 10 n

end TierScript.Json
