import TierScript.Token.Literal

/-!
# JSON texts as trees

`Raw.read?` checks a text against the grammar of JSON and gives its tree. The leaves stay as they
are written: a numeral is its digits, a string its characters and numeric escapes. Whether a numeral
is in range and an escape names a character is asked later, and only of the parts that are used.
-/

namespace TierScript.Json

/-- A part of a string: a character, or a 16-bit unit given by a numeric escape. -/
inductive Piece where
  | char (c : Char)
  | unit (n : Nat)
  deriving DecidableEq, Repr, Inhabited

/-- A numeral as it is written. -/
structure Numeral where
  negative : Bool
  whole : List Char
  fraction : Option (List Char) := none
  /-- Whether the power of ten is negative, and its digits. -/
  exponent : Option (Bool × List Char) := none
  deriving DecidableEq, Repr, Inhabited

/-- The tree of a JSON text. -/
inductive Raw where
  | null
  | bool (b : Bool)
  | number (n : Numeral)
  | string (s : List Piece)
  | array (items : List Raw)
  | object (members : List (List Piece × Raw))
  deriving Repr, Inhabited

/-- White space between the parts of a JSON text. -/
def isSpace (c : Char) : Bool := c == ' ' || c == '\n' || c == '\t' || c == '\r'

/-- The text without the white space at its start. -/
def skipSpace (cs : List Char) : List Char := cs.dropWhile isSpace

/-- The character that a backslash and `c` stand for. -/
def escape? (c : Char) : Option Char :=
  if c = '\x22' ∨ c = '\x5c' ∨ c = '/' then some c
  else if c = 'b' then some '\x08'
  else if c = 'f' then some '\x0c'
  else if c = 'n' then some '\n'
  else if c = 'r' then some '\r'
  else if c = 't' then some '\t'
  else none

/-- The pieces of a string after its opening quote, and the text after its closing quote. -/
def readString? : List Char → Option (List Piece × List Char)
  | [] => none
  | c :: cs =>
    if c = '\x22' then some ([], cs)
    else if c.toNat < 0x20 then none
    else if c = '\x5c' then
      match cs with
      | [] => none
      | e :: es =>
        if e = 'u' then
          match es with
          | h₁ :: h₂ :: h₃ :: h₄ :: rest =>
            match Literal.hexNumber? [h₁, h₂, h₃, h₄], readString? rest with
            | some n, some (pieces, after) => some (.unit n :: pieces, after)
            | _, _ => none
          | _ => none
        else
          match escape? e, readString? es with
          | some x, some (pieces, after) => some (.char x :: pieces, after)
          | _, _ => none
    else
      match readString? cs with
      | some (pieces, after) => some (.char c :: pieces, after)
      | none => none

/-- The digits at the front, of which there is at least one. -/
def readDigits? (cs : List Char) : Option (List Char × List Char) :=
  match cs.takeWhile Char.isDigit with
  | [] => none
  | digits => some (digits, cs.dropWhile Char.isDigit)

/-- The digits before the point: a zero on its own, or digits that do not start with one. -/
def readWhole? (cs : List Char) : Option (List Char × List Char) :=
  (readDigits? cs).bind fun (digits, rest) =>
    if digits.head? = some '0' ∧ digits ≠ ['0'] then none else some (digits, rest)

/-- The digits after the point, if there is one. -/
def readFraction? : List Char → Option (Option (List Char) × List Char)
  | '.' :: cs => (readDigits? cs).map fun (digits, rest) => (some digits, rest)
  | cs => some (none, cs)

/-- The power of ten, if there is one. -/
def readExponent? (cs : List Char) : Option (Option (Bool × List Char) × List Char) :=
  match cs with
  | [] => some (none, [])
  | c :: rest =>
    if c = 'e' ∨ c = 'E' then
      match rest with
      | '+' :: more => (readDigits? more).map fun (digits, after) => (some (false, digits), after)
      | '-' :: more => (readDigits? more).map fun (digits, after) => (some (true, digits), after)
      | _ => (readDigits? rest).map fun (digits, after) => (some (false, digits), after)
    else some (none, cs)

/-- A numeral at the front of a text. -/
def readNumeral? (cs : List Char) : Option (Numeral × List Char) :=
  let (negative, rest) := match cs with
    | '-' :: more => (true, more)
    | _ => (false, cs)
  (readWhole? rest).bind fun (whole, rest) =>
    (readFraction? rest).bind fun (fraction, rest) =>
      (readExponent? rest).map fun (exponent, rest) =>
        (⟨negative, whole, fraction, exponent⟩, rest)

/-- The text after `word`, if it starts with it. -/
def afterWord? (word cs : List Char) : Option (List Char) :=
  if word.isPrefixOf cs then some (cs.drop word.length) else none

mutual

/-- The value at the front of a text, after any white space. -/
def readValue? : Nat → List Char → Option (Raw × List Char)
  | 0, _ => none
  | fuel + 1, text =>
    match skipSpace text with
    | [] => none
    | c :: cs =>
      if c = 'n' then (afterWord? "ull".toList cs).map fun rest => (.null, rest)
      else if c = 't' then (afterWord? "rue".toList cs).map fun rest => (.bool true, rest)
      else if c = 'f' then (afterWord? "alse".toList cs).map fun rest => (.bool false, rest)
      else if c = '\x22' then (readString? cs).map fun (pieces, rest) => (.string pieces, rest)
      else if c = '[' then
        match skipSpace cs with
        | ']' :: rest => some (.array [], rest)
        | rest => (readItems? fuel rest).map fun (items, after) => (.array items, after)
      else if c = '\x7b' then
        match skipSpace cs with
        | '\x7d' :: rest => some (.object [], rest)
        | rest => (readMembers? fuel rest).map fun (members, after) => (.object members, after)
      else (readNumeral? (c :: cs)).map fun (n, rest) => (.number n, rest)

/-- The items of an array that is not empty, through its closing bracket. -/
def readItems? : Nat → List Char → Option (List Raw × List Char)
  | 0, _ => none
  | fuel + 1, text =>
    match readValue? fuel text with
    | none => none
    | some (item, rest) =>
      match skipSpace rest with
      | ']' :: after => some ([item], after)
      | ',' :: more => (readItems? fuel more).map fun (items, after) => (item :: items, after)
      | _ => none

/-- The members of an object that is not empty, through its closing brace. -/
def readMembers? : Nat → List Char → Option (List (List Piece × Raw) × List Char)
  | 0, _ => none
  | fuel + 1, text =>
    match skipSpace text with
    | '\x22' :: cs =>
      match readString? cs with
      | none => none
      | some (key, rest) =>
        match skipSpace rest with
        | ':' :: more =>
          match readValue? fuel more with
          | none => none
          | some (value, rest) =>
            match skipSpace rest with
            | '\x7d' :: after => some ([(key, value)], after)
            | ',' :: more =>
              (readMembers? fuel more).map fun (members, after) => ((key, value) :: members, after)
            | _ => none
        | _ => none
    | _ => none

end

/-- The tree of a whole text. -/
def Raw.read? (text : List Char) : Option Raw :=
  match readValue? (text.length + 1) text with
  | some (value, rest) => if (skipSpace rest).isEmpty then some value else none
  | none => none

end TierScript.Json
