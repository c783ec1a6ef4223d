import TierScript.Decimal.Binary64

/-!
# Reading decimals

Integers of 64 bits, and decimal fractions with an optional power of ten. A fraction is read as the
nearest double, a tie going to the even neighbour.
-/

namespace TierScript.Decimal

/-- Splits off a sign and tells whether it was a minus sign. -/
def splitSign : List Char → Bool × List Char
  | [] => (false, [])
  | c :: cs => if c = '-' then (true, cs) else if c = '+' then (false, cs) else (false, c :: cs)

/-- Splits off the digits at the front. -/
def splitDigits (cs : List Char) : List Char × List Char :=
  (cs.takeWhile Char.isDigit, cs.dropWhile Char.isDigit)

/-- The integer that a text spells: an optional sign and at least one digit (in `parse_number`). -/
def readInt? (cs : List Char) : Option Int :=
  let (negative, rest) := splitSign cs
  if rest.isEmpty || !rest.all Char.isDigit then none
  else
    let n := Nat.ofDigitChars 10 rest 0
    some (if negative then -(n : Int) else n)

/-- The integer that a text spells, if it has 64 bits (in `parse_number`). -/
def readInt64? (cs : List Char) : Option Int64 :=
  (readInt? cs).bind fun n => if -2 ^ 63 ≤ n ∧ n < 2 ^ 63 then some (Int64.ofInt n) else none

/-- The double nearest to `units * 10 ^ place`. Powers of ten that are out of reach of every double
    are not computed. -/
def nearestFloat (units : Nat) (place : Int) : Float :=
  if units = 0 then 0.0
  else
    let size := (Nat.toDigits 10 units).length + place
    if 310 < size then 1.0 / 0.0
    else if size < -330 then 0.0
    else
      let bits := Binary64.nearest (units * Nat.pow 10 place.toNat) (Nat.pow 10 (-place).toNat)
      Float.ofBits bits.toUInt64

/-- The power of ten at the end of a text: nothing, or an `e` and a number. -/
def readPower? : List Char → Option Int
  | [] => some 0
  | c :: cs => if c = 'e' ∨ c = 'E' then readInt? cs else none

/-- The double that a decimal fraction spells: an optional sign, digits with a point among them or
    at their ends, and an optional power of ten (in `parse_number`). -/
def readFloat? (cs : List Char) : Option Float :=
  let (negative, rest) := splitSign cs
  let (whole, rest) := splitDigits rest
  let (fraction, rest) := match rest with
    | '.' :: more => splitDigits more
    | _ => ([], rest)
  if whole.isEmpty && fraction.isEmpty then none
  else
    (readPower? rest).map fun power =>
      let x := nearestFloat (Nat.ofDigitChars 10 (whole ++ fraction) 0) (power - fraction.length)
      if negative then -x else x

end TierScript.Decimal
