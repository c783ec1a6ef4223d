import TierScript.Source.Span
import TierScript.Text.Utf8

/-!
# Source texts and their lines

A source is a named text. A line ends at a line feed, at a carriage return followed by a line feed,
or at a carriage return on its own. `Source.lineStarts` gives the byte offset of each line, and
`Source.line?` the text of a line without its ending.
-/

namespace TierScript

/-- Whether `c`, followed by `next`, is the last character of its line. In a carriage return and
    line feed pair that is the line feed. -/
def endsLine (c : Char) (next : Option Char) : Bool :=
  c == '\n' || (c == '\r' && next != some '\n')

/-- A named text (`SourceFile`). -/
structure Source where
  name : String
  text : List Char
  deriving DecidableEq, Repr, Inhabited

namespace Source

/-- The source `name` with the characters of `text`. -/
def ofString (name text : String) : Source := ⟨name, text.toList⟩

/-- The offsets just after each line end of a text that begins at `offset` (the loop of `new`). -/
def lineStartsFrom (offset : Nat) : List Char → List Nat
  | [] => []
  | c :: cs =>
    let after := offset + c.utf8Size
    if endsLine c cs.head? then after :: lineStartsFrom after cs else lineStartsFrom after cs

/-- The byte offset of the first character of every line (in `new`). -/
def lineStarts (s : Source) : List Nat := 0 :: lineStartsFrom 0 s.text

/-- The number of lines (`line_count`). A text that ends in a line end has an empty last line. -/
def lineCount (s : Source) : Nat := s.lineStarts.length

/-- Whether `c` belongs to a line end. -/
def isLineEnd (c : Char) : Bool := c == '\n' || c == '\r'

/-- The text without the line-end characters at its end (in `line`). -/
def trimLineEnd (cs : List Char) : List Char :=
  (cs.reverse.dropWhile isLineEnd).reverse

/-- The line with the given number, counted from 1, without its line end (`line`). -/
def line? (s : Source) (number : Nat) : Option (List Char) :=
  match number with
  | 0 => none
  | index + 1 =>
    match s.lineStarts[index]? with
    | none => none
    | some start =>
      let stop := s.lineStarts[index + 1]?.getD (Text.byteLength s.text)
      some (trimLineEnd (Text.takeBytes (stop - start) (Text.dropBytes start s.text)))

end Source

end TierScript
