import TierScript.Decimal.Read
import TierScript.Json.Raw

/-!
# What the leaves of a JSON tree mean

A string is decoded by joining its surrogate pairs; a surrogate on its own has no meaning. A numeral
without fraction and power of ten is an integer if it fits in 64 bits, and any other numeral is a
double. The double is computed in two roundings: the significant digits, as many as fit in 64 bits,
and then the product or quotient with a power of ten.
-/

namespace TierScript.Json

/-- The text of a string. -/
def decodePieces? : List Piece → Option (List Char)
  | [] => some []
  | .char c :: rest => (decodePieces? rest).map (c :: ·)
  | .unit n :: rest =>
    if 0xd800 ≤ n ∧ n < 0xdc00 then
      match rest with
      | .unit low :: more =>
        if 0xdc00 ≤ low ∧ low < 0xe000 then
          (decodePieces? more).map
            (Char.ofNat (0x10000 + (n - 0xd800) * 0x400 + (low - 0xdc00)) :: ·)
        else none
      | _ => none
    else if 0xdc00 ≤ n ∧ n < 0xe000 then none
    else (decodePieces? rest).map (Char.ofNat n :: ·)

/-! ## Numerals -/

/-- What a numeral means. -/
inductive Quantity where
  | natural (n : Nat)
  | negative (n : Int)
  | double (x : Float)
  deriving Repr, Inhabited

/-- The largest natural number of 64 bits. -/
def maxNatural : Nat := 2 ^ 64 - 1

/-- Appends digits to a significand until the next one would not fit in 64 bits. Gives the new
    significand, the number of digits appended and the number of digits left out. -/
def appendDigits (significand appended : Nat) : List Char → Nat × Nat × Nat
  | [] => (significand, appended, 0)
  | c :: cs =>
    let next := 10 * significand + (c.toNat - 48)
    if next ≤ maxNatural then appendDigits next (appended + 1) cs
    else (significand, appended, (c :: cs).length)

/-- The double nearest to a power of ten. -/
def powerOfTen (exponent : Nat) : Float := Decimal.nearestFloat 1 exponent

/-- `f * 10 ^ exponent` by one multiplication or division, after divisions that bring an exponent
    into reach. Has no value where the product is infinite. -/
def scale? : Nat → Float → Int → Option Float
  | 0, f, _ => some f
  | fuel + 1, f, exponent =>
    if exponent.natAbs ≤ 308 then
      let power := powerOfTen exponent.natAbs
      if 0 ≤ exponent then
        let product := f * power
        if product.isInf then none else some product
      else some (f / power)
    else if f == 0.0 then some f
    else if 0 ≤ exponent then none
    else scale? fuel (f / powerOfTen 308) (exponent + 308)

/-- The largest integer of 32 bits. A power of ten beyond it is infinite or zero. -/
def maxExponent : Nat := 2 ^ 31 - 1

/-- Keeps an exponent within 32 bits. -/
def clampExponent (e : Int) : Int :=
  if e < -2 ^ 31 then -2 ^ 31 else if 2 ^ 31 ≤ e then 2 ^ 31 - 1 else e

/-- The magnitude of a numeral as a double. -/
def Numeral.magnitude? (n : Numeral) : Option Float :=
  let (whole, _, left) := appendDigits 0 0 n.whole
  let (significand, appended, _) := appendDigits whole 0 (n.fraction.getD [])
  let start : Int := (left : Int) - appended
  match n.exponent with
  | none => scale? 8 significand.toUInt64.toFloat start
  | some (down, digits) =>
    let power := Nat.ofDigitChars 10 digits 0
    if maxExponent < power then
      if significand ≠ 0 ∧ !down then none else some 0.0
    else
      let exponent := clampExponent (if down then start - power else start + power)
      scale? 8 significand.toUInt64.toFloat exponent

/-- The meaning of a numeral, unless its magnitude is beyond every double. -/
def Numeral.decode? (n : Numeral) : Option Quantity :=
  let value := Nat.ofDigitChars 10 n.whole 0
  if n.fraction.isNone && n.exponent.isNone && value ≤ maxNatural then
    if !n.negative then some (.natural value)
    else if value = 0 ∨ 2 ^ 63 < value then some (.double (-(value.toUInt64.toFloat)))
    else some (.negative (-(value : Int)))
  else n.magnitude?.map fun x => .double (if n.negative then -x else x)

/-! ## Leaves -/

/-- The text of a string value. -/
def Raw.text? : Raw → Option (List Char)
  | .string pieces => decodePieces? pieces
  | _ => none

/-- A natural number of at most `bound`, written without fraction and power of ten. -/
def Raw.nat? (bound : Nat) : Raw → Option Nat
  | .number n =>
    match n.decode? with
    | some (.natural k) => if k ≤ bound then some k else none
    | _ => none
  | _ => none

/-- The members of an object under their decoded names. -/
def Raw.members? : Raw → Option (List (List Char × Raw))
  | .object members => go members
  | _ => none
where
  /-- Decodes the names one by one. -/
  go : List (List Piece × Raw) → Option (List (List Char × Raw))
    | [] => some []
    | (key, value) :: rest =>
      match decodePieces? key, go rest with
      | some k, some more => some ((k, value) :: more)
      | _, _ => none

/-- The value of the member called `name`, if there is one; more than one is an error. -/
def only? (members : List (List Char × Raw)) (name : String) : Option (Option Raw) :=
  match members.filter fun m => m.1 == name.toList with
  | [] => some none
  | [m] => some (some m.2)
  | _ => none

mutual

/-- Whether a tree has a meaning: nested at most `depth` deep, with every string and numeral in it
    meaning something. -/
def Raw.isSound : Nat → Raw → Bool
  | _, .null | _, .bool _ => true
  | _, .number n => n.decode?.isSome
  | _, .string pieces => (decodePieces? pieces).isSome
  | 0, .array _ | 0, .object _ => false
  | depth + 1, .array items => allSound depth items
  | depth + 1, .object members => allMembersSound depth members

/-- Whether all of the items have a meaning. -/
def Raw.allSound (depth : Nat) : List Raw → Bool
  | [] => true
  | item :: rest => Raw.isSound depth item && Raw.allSound depth rest

/-- Whether all of the members have a meaning. -/
def Raw.allMembersSound (depth : Nat) : List (List Piece × Raw) → Bool
  | [] => true
  | member :: rest => Raw.memberSound depth member && Raw.allMembersSound depth rest

/-- Whether a member has a meaning. -/
def Raw.memberSound (depth : Nat) : List Piece × Raw → Bool
  | (key, value) => (decodePieces? key).isSome && Raw.isSound depth value

end

/-- How deep arrays and objects may be nested. -/
def maxDepth : Nat := 127

end TierScript.Json
