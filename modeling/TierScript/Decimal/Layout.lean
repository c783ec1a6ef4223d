import TierScript.Decimal.Shortest

/-!
# Writing decimals

Digits with the point set among them, with zeros added where the point lies outside, and digits with
a power of ten behind them.
-/

namespace TierScript.Decimal

/-- `n` zeros. -/
def zeros (n : Nat) : List Char := List.replicate n '0'

/-- The digits with the point in its place. At least one digit stands before the point, and no point
    is written behind a whole number. -/
def positional (d : Digits) : List Char :=
  match d.point with
  | .negSucc n => ['0', '.'] ++ zeros (n + 1) ++ d.digits
  | .ofNat 0 => ['0', '.'] ++ d.digits
  | .ofNat n =>
    if n < d.digits.length then d.digits.take n ++ ['.'] ++ d.digits.drop n
    else d.digits ++ zeros (n - d.digits.length)

/-- The digits with the point after the first one, and the power of ten that makes up for it with an
    explicit sign. -/
def scientific (d : Digits) : List Char :=
  let front := match d.digits with
    | [] => []
    | [c] => [c]
    | c :: rest => c :: '.' :: rest
  let exponent := d.point - 1
  let sign := if exponent < 0 then '-' else '+'
  front ++ ['e', sign] ++ Nat.toDigits 10 exponent.natAbs

/-- A minus sign before the text if `negative`. -/
def signed (negative : Bool) (text : List Char) : List Char :=
  if negative then '-' :: text else text

/-- The digits of an integer, with a minus sign if it is negative. -/
def ofInt (n : Int) : List Char :=
  signed (n < 0) (Nat.toDigits 10 n.natAbs)

end TierScript.Decimal
