/-!
# The parts of a binary floating-point number

A finite double is a sign and a product of a natural number and a power of two. `Binary64.ofFloat`
takes a double apart, so that questions about its exact value become questions about integers.
`Binary64.nearest` goes the other way: it finds the double nearest to a fraction.
-/

-- A power with a literal exponent is the one of core, whichever other instances are in scope. For
-- other exponents the definitions say `Nat.pow`.
attribute [default_instance 20000] instPowNat

namespace TierScript

/-- A double taken apart. A finite one has the magnitude `mantissa * 2 ^ exponent`. -/
inductive Binary64 where
  | nan
  | infinite (negative : Bool)
  | finite (negative : Bool) (mantissa : Nat) (exponent : Int)
  deriving DecidableEq, Repr, Inhabited

namespace Binary64

/-- The parts that the three fields of the bit pattern encode. -/
def ofBits (bits : Nat) : Binary64 :=
  let negative : Bool := 2 ^ 63 ≤ bits
  let field : Nat := bits / 2 ^ 52 % 2 ^ 11
  let fraction := bits % 2 ^ 52
  if field = 2047 then
    if fraction = 0 then .infinite negative else .nan
  else if field = 0 then .finite negative fraction (-1074)
  else .finite negative (2 ^ 52 + fraction) ((field : Int) - 1075)

/-- The parts of a double. -/
def ofFloat (x : Float) : Binary64 := ofBits x.toBits.toNat

/-- The value of `mantissa * 2 ^ exponent` if it is a whole number. -/
def whole? (mantissa : Nat) (exponent : Int) : Option Nat :=
  match exponent with
  | .ofNat e => some (mantissa * Nat.pow 2 e)
  | .negSucc e =>
    if mantissa % Nat.pow 2 (e + 1) = 0 then some (mantissa / Nat.pow 2 (e + 1)) else none

/-- The value of a double if it is a whole number. -/
def toInt? : Binary64 → Option Int
  | .finite negative mantissa exponent =>
    (whole? mantissa exponent).map fun n => if negative then -(n : Int) else n
  | _ => none

/-! ## Rounding to the nearest double -/

/-- `num / den` rounded to the nearest natural number, a tie going to the even neighbour. -/
def roundDiv (num den : Nat) : Nat :=
  let below := num / den
  let twice := 2 * (num % den)
  if twice < den ∨ twice = den ∧ below % 2 = 0 then below else below + 1

/-- The exponent `k` of the power of two for which `num / den` lies from `2 ^ k` up to
    `2 ^ (k + 1)`. -/
def log2Div (num den : Nat) : Int :=
  let k : Int := (num.log2 : Int) - den.log2
  if den * Nat.pow 2 k.toNat ≤ num * Nat.pow 2 (-k).toNat then k else k - 1

/-- The bit pattern of the double nearest to the fraction `num / den`, a tie going to the even
    mantissa. The mantissa has 53 bits unless the exponent would fall below the least one, and a
    mantissa that is rounded up to 54 bits carries into the exponent. Beyond the largest double the
    answer is infinity. -/
def nearest (num den : Nat) : Nat :=
  let exponent := max (log2Div num den - 52) (-1074)
  let mantissa := roundDiv (num * Nat.pow 2 (-exponent).toNat) (den * Nat.pow 2 exponent.toNat)
  min ((exponent + 1074).toNat * 2 ^ 52 + mantissa) (2047 * 2 ^ 52)

end Binary64

/-- The double nearest to an integer of 64 bits, a tie going to the even neighbour. -/
def floatOfInt64 (n : Int64) : Float :=
  if n < 0 then -(n.toInt.natAbs.toUInt64.toFloat) else n.toInt.natAbs.toUInt64.toFloat

end TierScript
