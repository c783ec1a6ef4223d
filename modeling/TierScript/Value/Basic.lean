import TierScript.Decimal.Layout
import TierScript.Decimal.Read
import TierScript.Text.Blank

/-!
# Values

What a variable can hold. Every value has a text form, which is what scripts print, concatenate and
compare for equality; truth is a matter of that text too. Numbers are seen through three views: the
one for arithmetic, which is in `TierScript.Value.Arith`, the one for ordering (`Value.toFloat?`)
and the one for ranges (`Value.toInteger?`).
-/

namespace TierScript

/-- A value. -/
inductive Value where
  | null
  | bool (b : Bool)
  | int (n : Int64)
  | float (x : Float)
  | str (s : String)
  | array (items : List Value)
  deriving Repr, Inhabited

/-- A value as an operand of arithmetic. -/
inductive Number where
  | int (n : Int64)
  | float (x : Float)
  deriving DecidableEq, Repr, Inhabited

namespace Number

/-- The number as a double (`as_f64`). -/
def toFloat : Number → Float
  | int n => floatOfInt64 n
  | float x => x

/-- The number with its sign changed; the least integer has no positive counterpart and stays as it
    is (`negate`). -/
def negate : Number → Number
  | int n => int (-n)
  | float x => float (-x)

/-- Whether the number is a double. -/
def isFloat : Number → Bool
  | int _ => false
  | float _ => true

/-- The value that a number is. -/
def toValue : Number → Value
  | int n => .int n
  | float x => .float x

/-- The number that a text spells, white space around it aside: a fraction if there is a point in
    it, an integer otherwise (`parse_number`). -/
def ofText? (cs : List Char) : Option Number :=
  let cs := Text.trim cs
  if cs.contains '.' then (Decimal.readFloat? cs).map float
  else (Decimal.readInt64? cs).map int

end Number

namespace Value

/-- The text of a double: a whole number in full with one zero after the point, any other number
    with the fewest digits that read back and no power of ten (in `fmt`). -/
def floatText (x : Float) : List Char :=
  match Binary64.ofFloat x with
  | .nan => "NaN".toList
  | .infinite negative => Decimal.signed negative "inf".toList
  | .finite negative mantissa exponent =>
    Decimal.signed negative <|
      match Binary64.whole? mantissa exponent with
      | some n => Nat.toDigits 10 n ++ ['.', '0']
      | none => Decimal.positional (Decimal.shortest mantissa exponent .up)

mutual

/-- The text of a value (`fmt` of `Value`). -/
def text : Value → List Char
  | null => "null".toList
  | bool b => (if b then "true" else "false").toList
  | int n => Decimal.ofInt n.toInt
  | float x => floatText x
  | str s => s.toList
  | array items => '[' :: itemsText items ++ [']']

/-- The texts of values with a comma and a space in between (in `fmt`). -/
def itemsText : List Value → List Char
  | [] => []
  | [v] => text v
  | v :: w :: rest => text v ++ [',', ' '] ++ itemsText (w :: rest)

end

/-- The text of a value as a string. -/
def render (v : Value) : String := String.ofList v.text

/-- The name of the type of a value (`type_name`). -/
def typeName : Value → String
  | null => "null"
  | bool _ => "bool"
  | int _ => "int"
  | float _ => "float"
  | str _ => "string"
  | array _ => "array"

/-- Whether the value is null (`is_null`). -/
def isNull : Value → Bool
  | null => true
  | _ => false

/-- Whether the value is a string. -/
def isStr : Value → Bool
  | str _ => true
  | _ => false

/-- Only what is written `true` is true (`is_true`). -/
def isTrue : Value → Bool
  | bool b => b
  | str s => s == "true"
  | _ => false

/-- The value as an operand of `<`, `>`, `<=` and `>=` (`as_f64`). A variable that is not set is
    zero. -/
def toFloat? : Value → Option Float
  | null => some 0.0
  | int n => some (floatOfInt64 n)
  | float x => some x
  | str s => (Number.ofText? s.toList).map Number.toFloat
  | bool _ | array _ => none

/-- The integer of 64 bits that is nearest to `n` (in `as_integer`). -/
def clamp (n : Int) : Int64 :=
  if n < -2 ^ 63 then Int64.minValue else if 2 ^ 63 ≤ n then Int64.maxValue else Int64.ofInt n

/-- The value as an end of a range: an integer, a whole double, or a text that spells an integer
    (`as_integer`). -/
def toInteger? : Value → Option Int64
  | int n => some n
  | float x => (Binary64.ofFloat x).toInt?.map clamp
  | str s => Decimal.readInt64? (Text.trim s.toList)
  | null | bool _ | array _ => none

end Value

end TierScript
