import TierScript.Json.Decode
import TierScript.Json.Write
import TierScript.Value.Basic

/-!
# Values as JSON

Every value is written as the JSON value of its kind; the doubles that are no numbers become null.
Read back, an integer outside 64 signed bits becomes a double, and an object is no value.
-/

namespace TierScript.Value

/-- Which powers of ten are written out: the exponents of the first digit from `-5` to `15`. -/
def isPlain (d : Decimal.Digits) : Bool := -4 ≤ d.point && d.point ≤ 16

/-- A double: the fewest digits that read back, with at least one digit after the point where no
    power of ten is written. -/
def floatJson (x : Float) : List Char :=
  match Binary64.ofFloat x with
  | .nan | .infinite _ => "null".toList
  | .finite negative mantissa exponent =>
    Decimal.signed negative <|
      if mantissa = 0 then ['0', '.', '0']
      else
        let d := Decimal.shortest mantissa exponent .toEven
        if isPlain d then
          let digits := Decimal.positional d
          if digits.contains '.' then digits else digits ++ ['.', '0']
        else Decimal.scientific d

mutual

/-- The JSON text of a value. -/
def json : Value → List Char
  | null => "null".toList
  | bool b => (if b then "true" else "false").toList
  | int n => Decimal.ofInt n.toInt
  | float x => floatJson x
  | str s => Json.writeString s.toList
  | array items => '[' :: itemsJson items ++ [']']

/-- The JSON texts of values with commas in between. -/
def itemsJson : List Value → List Char
  | [] => []
  | [v] => json v
  | v :: w :: rest => json v ++ [','] ++ itemsJson (w :: rest)

end

/-- The value of a numeral. -/
def ofQuantity : Json.Quantity → Value
  | .natural n => if n < 2 ^ 63 then int (Int64.ofNat n) else float n.toUInt64.toFloat
  | .negative n => int (Int64.ofInt n)
  | .double x => float x

mutual

/-- The value of a tree that is nested at most `depth` deep. -/
def ofRaw? : Nat → Json.Raw → Option Value
  | _, .null => some null
  | _, .bool b => some (bool b)
  | _, .number n => n.decode?.map ofQuantity
  | _, .string pieces => (Json.decodePieces? pieces).map fun cs => str (String.ofList cs)
  | 0, .array _ => none
  | depth + 1, .array items => (ofRaws? depth items).map array
  | _, .object _ => none

/-- The values of trees. -/
def ofRaws? (depth : Nat) : List Json.Raw → Option (List Value)
  | [] => some []
  | item :: rest =>
    match ofRaw? depth item, ofRaws? depth rest with
    | some v, some vs => some (v :: vs)
    | _, _ => none

end

/-- The value that a JSON text spells. -/
def ofJson? (text : List Char) : Option Value :=
  (Json.Raw.read? text).bind (ofRaw? Json.maxDepth)

end TierScript.Value
