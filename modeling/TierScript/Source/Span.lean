/-!
# Positions and spans

A position is a line and a column, both counted from 1; columns count characters. A span is the
pair of the positions of its first and its last character. Positions are ordered by line and then
by column, and `Span.merge` is the smallest span that covers two others.
-/

namespace TierScript

/-- A line and a column, both from 1. -/
structure Position where
  line : Nat
  col : Nat
  deriving DecidableEq, Repr, Inhabited

namespace Position

/-- The position of the first character of a text. -/
def first : Position := ⟨1, 1⟩

/-- Whether `p` is not after `q`. -/
def le (p q : Position) : Bool :=
  p.line < q.line || (p.line == q.line && p.col ≤ q.col)

/-- The earlier of two positions. -/
def min (p q : Position) : Position := if p.le q then p else q

/-- The later of two positions. -/
def max (p q : Position) : Position := if p.le q then q else p

/-- The position after a character at `p`: the start of the next line if the character ends its
    line, the next column otherwise (in `commit`). -/
def next (p : Position) (endsLine : Bool) : Position :=
  if endsLine then ⟨p.line + 1, 1⟩ else ⟨p.line, p.col + 1⟩

/-- `line:col`. -/
def render (p : Position) : String :=
  toString p.line ++ ":" ++ toString p.col

theorem le_iff {p q : Position} :
    p.le q = true ↔ p.line < q.line ∨ (p.line = q.line ∧ p.col ≤ q.col) := by
  simp [le]

@[simp] theorem le_refl (p : Position) : p.le p = true := by
  simp [le_iff]

theorem le_trans {p q r : Position} (h₁ : p.le q = true) (h₂ : q.le r = true) :
    p.le r = true := by
  rw [le_iff] at *
  omega

end Position

/-- The positions of the first and the last character of a part of the text. -/
structure Span where
  start : Position
  stop : Position
  deriving DecidableEq, Repr, Inhabited

namespace Span

/-- The span of a single position (`point`). -/
def point (p : Position) : Span := ⟨p, p⟩

/-- The span of the first character of a text. -/
def first : Span := point .first

/-- The smallest span that covers both (`merge`). -/
def merge (a b : Span) : Span := ⟨a.start.min b.start, a.stop.max b.stop⟩

/-- Whether `inner` lies within `outer`. -/
def covers (outer inner : Span) : Bool :=
  outer.start.le inner.start && inner.stop.le outer.stop

/-- A span is shown as the position it starts at (`fmt` of `Span`). -/
def render (s : Span) : String := s.start.render

end Span

end TierScript
