import TierScript.Program.Operator
import TierScript.Value.Basic

/-!
# Comparison

Equality and the three text operators compare the texts of two values. The order of two values is
that of the numbers they are seen as; without a number on either side no order holds.
-/

namespace TierScript

/-- Whether `part` occurs in `whole` (in `compare`). -/
def occursIn (part : List Char) : List Char → Bool
  | [] => part.isEmpty
  | c :: cs => part.isPrefixOf (c :: cs) || occursIn part cs

/-- Whether the order `op` holds between two values, seen as numbers (in `compare`). -/
def ordered (op : Float → Float → Bool) (left right : Value) : Bool :=
  match left.toFloat?, right.toFloat? with
  | some l, some r => op l r
  | _, _ => false

/-- Whether a comparison holds (`compare`). -/
def compareValues (op : RelOp) (left right : Value) : Bool :=
  match op with
  | .eq => left.text == right.text
  | .notEq => left.text != right.text
  | .startsWith => right.text.isPrefixOf left.text
  | .contains => occursIn right.text left.text
  | .endsWith => right.text.isSuffixOf left.text
  | .lt => ordered (fun l r => l < r) left right
  | .gt => ordered (fun l r => r < l) left right
  | .ltEq => ordered (fun l r => l ≤ r) left right
  | .gtEq => ordered (fun l r => r ≤ l) left right

end TierScript
