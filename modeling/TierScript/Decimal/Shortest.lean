import TierScript.Decimal.Binary64

/-!
# The shortest decimal that reads back

Every double is the nearest double to all the reals of some interval around it. `shortest` gives a
decimal with the fewest significant digits inside that interval, and of two such decimals the nearer
one. When both are equally near, `tie` chooses.

The search runs over the number of digits. For each it looks only at the two neighbours of the value
on the grid of decimals with that many digits, in exact integer arithmetic.
-/

namespace TierScript.Decimal

/-- Which of two equally near decimals is taken. -/
inductive Tie where
  | up
  | toEven
  deriving DecidableEq, Repr

/-- A positive decimal: its significant digits and the place of the point, counted from the start
    of the digits. -/
structure Digits where
  digits : List Char
  point : Int
  deriving DecidableEq, Repr, Inhabited

/-- The positive fraction `num / den` together with the ends of an interval around it, over the same
    denominator. -/
structure Interval where
  low : Nat
  num : Nat
  high : Nat
  den : Nat
  closed : Bool
  deriving DecidableEq, Repr

/-- The interval of the reals whose nearest double is `mantissa * 2 ^ exponent`. Below a power of
    two the doubles lie twice as close. The ends belong to it if the mantissa is even. -/
def Interval.ofParts (mantissa : Nat) (exponent : Int) : Interval :=
  let below := if mantissa = 2 ^ 52 ∧ -1074 < exponent then 1 else 2
  let up := Nat.pow 2 (exponent - 2).toNat
  { low := (4 * mantissa - below) * up
    num := 4 * mantissa * up
    high := (4 * mantissa + 2) * up
    den := Nat.pow 2 (2 - exponent).toNat
    closed := mantissa % 2 = 0 }

/-- The number of zeros after the point of a fraction below one, at most `fuel`. -/
def zerosAfterPoint : Nat → Nat → Nat → Nat
  | 0, _, _ => 0
  | fuel + 1, num, den => if den ≤ 10 * num then 0 else zerosAfterPoint fuel (10 * num) den + 1

/-- The number `k` for which `num / den` lies from `10 ^ (k - 1)` up to `10 ^ k`. -/
def magnitude (num den : Nat) : Int :=
  if den ≤ num then (Nat.toDigits 10 (num / den)).length
  else -(zerosAfterPoint 400 num den : Int)

/-- The multiple of `10 ^ place` inside the interval that is nearest to its fraction, as a number of
    such units. -/
def Interval.nearest? (i : Interval) (place : Int) (tie : Tie) : Option Nat :=
  let unit := i.den * Nat.pow 10 place.toNat
  let scale := Nat.pow 10 (-place).toNat
  let below := i.num * scale / unit
  let belowFits :=
    if i.closed then i.low * scale ≤ below * unit else i.low * scale < below * unit
  let aboveFits :=
    if i.closed then (below + 1) * unit ≤ i.high * scale else (below + 1) * unit < i.high * scale
  if belowFits then
    if aboveFits then
      let twice := 2 * i.num * scale
      let middle := (2 * below + 1) * unit
      if twice < middle then some below
      else if middle < twice then some (below + 1)
      else match tie with
        | .up => some (below + 1)
        | .toEven => if below % 2 = 0 then some below else some (below + 1)
    else some below
  else if aboveFits then some (below + 1)
  else none

/-- The shortest decimal with at least `17 - fuel` digits, as a number of units and their place. -/
def searchDigits (i : Interval) (size : Int) (tie : Tie) : Nat → Nat × Int
  | 0 => ((i.nearest? (size - 17) tie).getD 0, size - 17)
  | fuel + 1 =>
    let place := size - (17 - (fuel + 1) : Int)
    match i.nearest? place tie with
    | some units => (units, place)
    | none => searchDigits i size tie fuel

/-- Removes the zeros at the end of a list of digits. -/
def dropZeros (digits : List Char) : List Char :=
  (digits.reverse.dropWhile (· == '0')).reverse

/-- The shortest decimal that reads back as the positive double `mantissa * 2 ^ exponent`. -/
def shortest (mantissa : Nat) (exponent : Int) (tie : Tie) : Digits :=
  let i := Interval.ofParts mantissa exponent
  let size := magnitude i.num i.den
  let (units, place) := searchDigits i size tie 16
  let digits := Nat.toDigits 10 units
  { digits := dropZeros digits, point := digits.length + place }

end TierScript.Decimal
