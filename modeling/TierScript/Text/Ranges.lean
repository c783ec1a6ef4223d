/-!
# Sets of characters given by ranges of code points

A character property of the Unicode standard is a finite union of closed ranges of code points.
`Ranges` lists such ranges and `Ranges.contains` tests a character against them.
-/

namespace TierScript.Text

/-- A set of code points, as a list of closed ranges `(first, last)`. -/
abbrev Ranges := List (Nat × Nat)

/-- Whether the code point of `c` lies in one of the ranges. -/
def Ranges.contains (table : Ranges) (c : Char) : Bool :=
  table.any fun r => r.1 ≤ c.toNat && c.toNat ≤ r.2

theorem Ranges.contains_iff {table : Ranges} {c : Char} :
    table.contains c = true ↔ ∃ r ∈ table, r.1 ≤ c.toNat ∧ c.toNat ≤ r.2 := by
  simp [Ranges.contains]

end TierScript.Text
