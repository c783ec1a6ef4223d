import Mathlib.Data.List.TakeWhile
import TierScript.Proofs.Token.Literals

/-!
# Where the last character of a token stands

The span of a token ends at its last character. Its lines are counted along the token, where only a
line feed ends one, whereas in the text a carriage return on its own ends a line too.

* `Position.loneReturns`: the line ends that are not counted.
* `straight_scan`: there are none but in block comments.
* `Reader.Session.stop_exact_iff`: the end of a span is the position of the last character if and
  only if there are none, and otherwise it is as many lines too early.
-/

namespace TierScript

open Text (byteLength)

/-! ## Counting lines within a token -/

namespace Position

/-- The number of carriage returns that are followed by another character than a line feed. -/
def loneReturns : List Char → Nat
  | c :: d :: cs => (if c = '\r' ∧ d ≠ '\n' then 1 else 0) + loneReturns (d :: cs)
  | _ => 0

theorem loneReturns_of_not_mem {cs : List Char} (h : '\r' ∉ cs) : loneReturns cs = 0 := by
  fun_induction loneReturns cs with
  | case1 c d cs ih =>
    have hc : ¬ (c = '\r' ∧ d ≠ '\n') := fun hlone => h (by simp [hlone.1])
    rw [if_neg hc, ih (List.not_mem_of_not_mem_cons h)]
  | case2 => rfl

/-- A line of the text that ends within a token is counted, or it ends at a lone carriage return. -/
theorem line_next {p q : Position} {k : Nat} (hline : q.line + k = p.line) (c d : Char) :
    (q.next (c == '\n')).line + (k + if c = '\r' ∧ d ≠ '\n' then 1 else 0) =
      (p.next (endsLine c (some d))).line := by
  by_cases hfeed : c = '\n'
  · subst hfeed
    simp [next, endsLine, ← hline, Nat.add_right_comm]
  · by_cases hlone : c = '\r' ∧ d ≠ '\n'
    · simp [next, endsLine, hlone, ← hline, Nat.add_assoc]
    · have hends : endsLine c (some d) = false := by
        unfold endsLine
        grind
      simp [next, hends, hfeed, hlone, hline]

theorem exists_head_of_concat (cs : List Char) (last : Char) :
    ∃ d ds, cs ++ [last] = d :: ds ∧ cs.head?.or (some last) = some d := by
  cases cs with
  | nil => exact ⟨last, [], rfl, rfl⟩
  | cons d ds => exact ⟨d, ds ++ [last], rfl, rfl⟩

/-- The lines that are counted along a token, and its lone carriage returns, together are the lines
    of the text. -/
theorem line_lastOf {p q : Position} {k : Nat} (hline : q.line + k = p.line) (front : List Char)
    (last : Char) :
    (q.lastOf (front ++ [last])).line + (k + loneReturns (front ++ [last])) =
      (p.after (some last) front).line := by
  induction front generalizing p q k with
  | nil => exact hline
  | cons c cs ih =>
    obtain ⟨d, ds, hds, hhead⟩ := exists_head_of_concat cs last
    have hrest := ih (line_next hline c d)
    rw [hds] at hrest
    rw [List.cons_append, hds, lastOf, loneReturns, after, hhead, ← hrest, Nat.add_assoc k]

/-- Without lone carriage returns positions along a token are those in the text. -/
theorem lastOf_eq_after {front : List Char} {last : Char}
    (h : loneReturns (front ++ [last]) = 0) (p : Position) :
    p.lastOf (front ++ [last]) = p.after (some last) front := by
  induction front generalizing p with
  | nil => rfl
  | cons c cs ih =>
    obtain ⟨d, ds, hds, hhead⟩ := exists_head_of_concat cs last
    rw [List.cons_append, hds, loneReturns, ← hds, Nat.add_eq_zero_iff] at h
    have hends : endsLine c (some d) = (c == '\n') := by
      have hlone := h.1
      unfold endsLine
      grind
    rw [List.cons_append, hds, lastOf, ← hds, ih h.2, after, hhead, hends]

end Position

/-! ## Tokens with lone carriage returns -/

/-- The characters of a block comment: what stands between `/.` and `./`. -/
def Token.IsBlockComment (cs : List Char) : Prop :=
  ∃ inside, cs = '/' :: '.' :: (inside ++ ['.', '/'])

namespace Scan

open Position (loneReturns loneReturns_of_not_mem)
open Token (IsBlockComment)

variable {cs : List Char}

/-- The outcome of a scan in which no carriage return stands alone, unless it is a block comment. -/
def Straight (cs : List Char) (r : Except Misread (Kind × Nat)) : Prop :=
  ∀ k n, r = .ok (k, n) →
    loneReturns (cs.take n) = 0 ∨ (k = .comment ∧ IsBlockComment (cs.take n))

theorem Straight.ok {k : Kind} {n : Nat} (h : loneReturns (cs.take n) = 0) :
    Straight cs (.ok (k, n)) := by
  rintro _ _ ⟨⟩
  exact .inl h

theorem Straight.error (cs : List Char) (m : Misread) : Straight cs (.error m) := nofun

theorem Straight.ite {p : Prop} [Decidable p] {a b : Except Misread (Kind × Nat)}
    (ha : p → Straight cs a) (hb : ¬ p → Straight cs b) : Straight cs (if p then a else b) := by
  split
  · exact ha ‹_›
  · exact hb ‹_›

theorem Straight.one (c : Char) (cs : List Char) (k : Kind) : Straight (c :: cs) (.ok (k, 1)) :=
  .ok rfl

/-- Two characters, unless they are a carriage return and something other than a line feed. -/
theorem Straight.two {c d : Char} (k : Kind) (hd : cs.head? = some d) (hc : c ≠ '\r' ∨ d = '\n') :
    Straight (c :: cs) (.ok (k, 2)) := by
  refine .ok ?_
  cases cs with
  | nil => cases hd
  | cons _ ds =>
    cases hd
    have hlone : ¬ (c = '\r' ∧ d ≠ '\n') := by tauto
    simp [loneReturns, hlone]

theorem Straight.oneOrTwo {c second : Char} {single double : Kind}
    (hc : c ≠ '\r' ∨ second = '\n') :
    Straight (c :: cs) (.ok (Scan.oneOrTwo cs second single double)) := by
  unfold Scan.oneOrTwo
  split
  · next h => exact .two double h hc
  · exact .one c cs single

theorem Straight.takeWhile {p : Char → Bool} (hp : p '\r' = false) (cs : List Char) (k : Kind) :
    Straight cs (.ok (k, (cs.takeWhile p).length)) := by
  refine .ok (loneReturns_of_not_mem fun hmem => ?_)
  rw [← (List.prefix_iff_eq_take.mp (List.takeWhile_prefix p))] at hmem
  have htrue := List.mem_takeWhile_imp hmem
  rw [hp] at htrue
  cases htrue

theorem take_commentEnd? {n : Nat} (h : commentEnd? cs = some n) :
    ∃ inside, cs.take n = inside ++ ['.', '/'] := by
  induction cs generalizing n with
  | nil => cases h
  | cons c cs ih =>
    rw [commentEnd?] at h
    split at h
    · next hclose =>
      cases h
      obtain ⟨rfl, hhead⟩ := hclose
      cases cs with
      | nil => cases hhead
      | cons _ _ => cases hhead; exact ⟨[], rfl⟩
    · obtain ⟨k, hk, rfl⟩ := Option.map_eq_some_iff.mp h
      obtain ⟨inside, hinside⟩ := ih hk
      exact ⟨c :: inside, by rw [List.take_succ_cons, hinside, List.cons_append]⟩

theorem Straight.blockComment {n : Nat} (hdot : cs.head? = some '.')
    (hend : commentEnd? (cs.drop 1) = some n) :
    Straight ('/' :: cs) (.ok (.comment, n + 2)) := by
  rintro _ _ ⟨⟩
  cases cs with
  | nil => cases hdot
  | cons _ cs =>
    cases hdot
    rw [List.drop_one, List.tail_cons] at hend
    obtain ⟨inside, hinside⟩ := take_commentEnd? hend
    exact .inr ⟨rfl, inside, by rw [List.take_succ_cons, List.take_succ_cons, hinside]⟩

theorem not_mem_chars (x : Literal.Item) : '\r' ∉ x.chars := by
  cases x with
  | plain c hc =>
    intro hmem
    rw [Literal.Item.chars, List.mem_singleton] at hmem
    exact hc (by simp [← hmem])
  | short e c hc =>
    intro hmem
    have hshort := (Literal.isShortEscape_of_mem hc).1
    simp only [Literal.Item.chars, List.mem_cons, List.not_mem_nil, or_false] at hmem
    rcases hmem with hmem | rfl
    · cases hmem
    · cases hshort
  | code d₁ d₂ d₃ d₄ =>
    have hdigit (d : Literal.HexDigit) : '\r' ≠ d.char := by
      intro heq
      have hhex := d.isHexDigit_char
      rw [← heq] at hhex
      cases hhex
    simp [Literal.Item.chars, hdigit]

theorem not_mem_spell (items : List Literal.Item) : '\r' ∉ Literal.spell items := by
  simp [Literal.spell, Literal.body, not_mem_chars]

/-- No line ends within a literal. -/
theorem Straight.string {n : Nat} (h : stringLength 0 0 cs = .ok n) :
    Straight ('\x22' :: cs) (.ok (.str, n)) := by
  obtain ⟨items, rest, rfl, rfl⟩ := Literal.stringLength_eq_ok_iff.mp h
  have htake : ('\x22' :: (Literal.body items ++ '\x22' :: rest)).take
      (0 + (Literal.body items).length + 2) = Literal.spell items := by
    rw [List.append_cons, ← List.cons_append, ← Literal.spell.eq_def]
    exact List.take_left' (by simp [Literal.spell])
  refine .ok (loneReturns_of_not_mem ?_)
  rw [htake]
  exact not_mem_spell items

/-- The characters after a word that belong to its token are those of an arithmetic function. -/
theorem not_mem_take_wordKind (word after : List Char) :
    '\r' ∉ after.take (wordKind word after).2 := by
  have harith (h : isArithName after = true) : '\r' ∉ after.take 1 := by
    cases after with
    | nil => cases h
    | cons c cs =>
      rw [List.take_succ_cons, List.take_zero, List.mem_singleton]
      rintro rfl
      cases h
  unfold wordKind
  grind

theorem Straight.word (cs : List Char) : Straight cs (.ok (scanWord cs)) := by
  have hword : '\r' ∉ cs.takeWhile isWordPart := by
    intro hmem
    have hpart := List.mem_takeWhile_imp hmem
    cases hpart
  refine .ok (loneReturns_of_not_mem ?_)
  rw [List.take_add, ← List.prefix_iff_eq_take.mp (List.takeWhile_prefix isWordPart),
    List.mem_append, not_or]
  exact ⟨hword, not_mem_take_wordKind _ _⟩

end Scan

open Scan in
/-- No token but a block comment has a carriage return that stands alone. -/
theorem straight_scan (firstColumn : Bool) (cs : List Char) :
    Straight cs (scan firstColumn cs) := by
  cases cs with
  | nil => exact .ok rfl
  | cons c cs =>
    unfold scan
    refine .ite (fun _ => .takeWhile rfl _ _) fun _ => ?_
    refine .ite (fun _ => .one c cs _) fun _ => ?_
    refine .ite (fun _ => .oneOrTwo (.inr rfl)) fun hreturn => ?_
    refine .ite (fun _ => .ite (fun _ => .takeWhile rfl _ _) fun _ => .one c cs _) fun _ => ?_
    iterate 6 refine .ite (fun _ => .one c cs _) fun _ => ?_
    iterate 2
      refine .ite (fun _ => .ite (fun h => .two _ h (.inl hreturn)) fun _ => .error _ _) fun _ => ?_
    iterate 6 refine .ite (fun _ => .oneOrTwo (.inl hreturn)) fun _ => ?_
    iterate 2 refine .ite (fun _ => .one c cs _) fun _ => ?_
    refine .ite (fun hslash => ?_) fun _ => ?_
    · subst hslash
      refine .ite (fun _ => .takeWhile rfl _ _) fun _ => ?_
      refine .ite (fun hdot => ?_) fun _ => .one _ cs _
      split
      · next n hend => exact .blockComment hdot hend
      · exact .error _ _
    refine .ite (fun hquote => ?_) fun _ => ?_
    · subst hquote
      cases h : stringLength 0 0 cs with
      | error m => exact .error _ _
      | ok n => exact .string h
    refine .ite (fun _ => .takeWhile rfl _ _) fun _ => ?_
    exact .ite (fun _ => .word _) fun _ => .error _ _

/-! ## The ends of spans -/

/-- Where the last character of a token stands, by the table of lines. -/
def Source.lastPosition (s : Source) (t : Token) : Position :=
  s.positionAt (t.offset + byteLength t.lexeme.dropLast)

namespace Reader

open Position (loneReturns lastOf_eq_after line_lastOf)

variable {source : Source} {before front : List Char} {last : Char} {r : Reader} {t : Token}

/-- The characters before the last one lead from the start of the token to its last character. -/
theorem In.after_front (h : r.In source before) (hheld : r.held = front ++ [last]) :
    r.position.after (some last) front = source.positionAt (r.offset + byteLength front) := by
  have htext : source.text = before ++ front ++ (last :: r.ahead) := by
    rw [h.text, hheld]
    simp
  rw [h.position, h.offset]
  exact Source.positionAt_after htext

theorem Holds.isBlockComment (h : r.Holds t) (hlone : loneReturns t.lexeme ≠ 0) :
    t.kind = .comment ∧ Token.IsBlockComment t.lexeme := by
  have htake : (r.held ++ r.ahead).take t.lexeme.length = t.lexeme := by
    rw [h.lexeme, List.take_left]
  have hstraight := straight_scan _ _ _ _ h.scanned
  rw [htake] at hstraight
  exact hstraight.resolve_left hlone

/-- The end of a span is right if and only if no line of the text ends at a lone carriage return
    within the token. Otherwise it is one line too early for each of them, and the token is a block
    comment. -/
theorem Session.stop_exact_iff (source : Source) (skipTrivia : Bool) (ops : List Op) {t : Token}
    {s' : Session}
    (h : ((Session.start source.text skipTrivia).after ops).perform .next = (.token t, s'))
    (hne : t.lexeme ≠ []) :
    (t.span.stop = source.lastPosition t ↔ loneReturns t.lexeme = 0) ∧
      t.span.stop.line + loneReturns t.lexeme = (source.lastPosition t).line ∧
      (loneReturns t.lexeme ≠ 0 → t.kind = .comment ∧ Token.IsBlockComment t.lexeme) := by
  have hstart : (start source.text skipTrivia).Stands source := ⟨[], in_ofText source skipTrivia⟩
  obtain ⟨before, hin⟩ := hstart.after ops
  obtain ⟨hread, -⟩ := perform_next_token h
  have hholds := next_holds hread
  obtain ⟨before', hin'⟩ := hin.next
  rw [hread] at hin'
  obtain ⟨front, last, hlexeme⟩ : ∃ front last, t.lexeme = front ++ [last] :=
    ⟨_, _, (List.dropLast_concat_getLast hne).symm⟩
  have hheld : s'.reader.held = front ++ [last] := hholds.lexeme.symm.trans hlexeme
  have hlast : source.lastPosition t = s'.reader.position.after (some last) front := by
    rw [hin'.after_front hheld, Source.lastPosition, hholds.offset, hlexeme, List.dropLast_concat]
  have hstop : t.span.stop = s'.reader.position.lastOf (front ++ [last]) := by
    rw [hholds.span, ← hheld]
    rfl
  have hlines : t.span.stop.line + loneReturns t.lexeme = (source.lastPosition t).line := by
    have hline := line_lastOf (Nat.add_zero s'.reader.position.line) front last
    rw [Nat.zero_add] at hline
    rw [hstop, hlast, hlexeme, hline]
  refine ⟨⟨fun heq => ?_, fun hzero => ?_⟩, hlines, hholds.isBlockComment⟩
  · rw [heq] at hlines
    omega
  · rw [hstop, hlast]
    exact lastOf_eq_after (hlexeme ▸ hzero) _

/-- A carriage return before a line feed does not stand alone: `/.\r\n./` ends at 2:2. -/
theorem Session.stop_exact_iff_crlf :
    ∃ t s', (Session.start "/.\r\n./".toList false).perform .next = (.token t, s') ∧
      t.lexeme = "/.\r\n./".toList ∧
      t.span.stop = (Source.ofString "crlf" "/.\r\n./").lastPosition t ∧ t.span.stop = ⟨2, 2⟩ := by
  refine ⟨_, _, rfl, rfl, ?_, rfl⟩
  exact (Session.stop_exact_iff (Source.ofString "crlf" "/.\r\n./") false [] rfl nofun).1.mpr rfl

/-- A carriage return that stands alone: the span of `/. a\rb ./` ends at 1:9, and its last
    character stands at 2:4. -/
theorem Session.stop_ne_lastPosition :
    ∃ t s', (Session.start "/. a\rb ./".toList false).perform .next = (.token t, s') ∧
      t.lexeme = "/. a\rb ./".toList ∧ t.span.stop = ⟨1, 9⟩ ∧
      (Source.ofString "return" "/. a\rb ./").lastPosition t = ⟨2, 4⟩ :=
  ⟨_, _, rfl, rfl, rfl, by decide⟩

end Reader

end TierScript
