import TierScript.Proofs.Program.Blame
import TierScript.Proofs.Token.Lines
import TierScript.Proofs.Token.Spacing

/-!
# Diagnostics quote the text they point at

A diagnostic knows a span and a line of the source. The span was counted along the characters by the
reader, the line was cut out of the text by byte offsets. Here both are shown to fit.

* `Source.Shows`: what follows a position in the line that the table of lines gives for it.
* `Fault.PointsAt`: the token or the misread text that a fault is about.
* `Source.diagnostic_quotes`: the quoted line exists, and what the diagnostic is about stands in it
  at the column that the diagnostic gives.
-/

namespace TierScript

open Text

/-! ## Places -/

/-- The table has a line for the position, and from the column of the position on that line consists
    of the text `ahead`, up to its first line end. -/
def Source.Shows (s : Source) (p : Position) (ahead : List Char) : Prop :=
  ∃ front, s.line? p.line = some (front ++ Source.restOfLine ahead) ∧ p.col = front.length + 1

theorem Source.shows_positionAt {s : Source} {before ahead : List Char}
    (htext : s.text = before ++ ahead) (hahead : ∀ c ∈ ahead.head?, isLineEnd c = false) :
    s.Shows (s.positionAt (byteLength before)) ahead := by
  obtain ⟨index, front, hposition, hline⟩ := getElem?_lines_positionAt htext hahead
  rw [hposition]
  exact ⟨front, (s.line?_eq_getElem?_lines index).trans hline, rfl⟩

theorem Source.Shows.exists_line {s : Source} {p : Position} {ahead : List Char}
    (h : s.Shows p ahead) (hahead : ∀ c ∈ ahead.head?, isLineEnd c = false) :
    ∃ row, s.line? p.line = some row ∧ 1 ≤ p.col ∧ p.col ≤ row.length + 1 ∧
      row[p.col - 1]? = ahead.head? := by
  obtain ⟨front, hline, hcol⟩ := h
  refine ⟨front ++ restOfLine ahead, hline, ?_⟩
  rw [hcol, Nat.add_sub_cancel, List.length_append]
  refine ⟨Nat.le_add_left 1 _, Nat.succ_le_succ (Nat.le_add_right _ _), ?_⟩
  rw [List.getElem?_append_right (Nat.le_refl _), Nat.sub_self, ← List.head?_eq_getElem?]
  cases ahead with
  | nil => rfl
  | cons c cs =>
    have hc : restOfLine (c :: cs) = c :: restOfLine cs :=
      List.takeWhile_cons_of_pos (by rw [hahead c rfl]; rfl)
    rw [hc]
    rfl

open Scan in
/-- Where a line end is read, it is a token of its own. -/
theorem scan_of_isLineEnd {c : Char} (hc : Source.isLineEnd c = true) (firstColumn : Bool)
    (cs : List Char) : ∃ n, scan firstColumn (c :: cs) = .ok (.newline, n) := by
  have hcases : c = '\n' ∨ c = '\r' := by simpa [Source.isLineEnd] using hc
  rcases hcases with rfl | rfl
  · exact ⟨1, rfl⟩
  · have hpair : scan firstColumn ('\r' :: cs) = .ok (oneOrTwo cs '\n' .newline .newline) := rfl
    rw [hpair, oneOrTwo]
    split
    · exact ⟨2, rfl⟩
    · exact ⟨1, rfl⟩

/-! ## What the reader gives -/

namespace Reader

variable {source : Source} {before : List Char} {r r' : Reader} {t : Token} {f : Fault}

/-- The token was read at a place of the text. Tokens that are not trivia are shown there. -/
structure Meets (source : Source) (t : Token) : Prop where
  start_le_stop : t.span.start.le t.span.stop = true
  shows : t.kind.isTrivia = false → ∃ ahead, source.Shows t.span.start ahead ∧
    (∀ c ∈ ahead.head?, Source.isLineEnd c = false) ∧ ahead.head? = t.lexeme.head?
  lexeme : t.lexeme = [] ↔ t.kind = .eof

/-- No token starts at the place of the fault, and the complaint says why. -/
def Misreads (source : Source) (f : Fault) (c : Char) : Prop :=
  ∃ before ahead extent, source.text = before ++ c :: ahead ∧
    f.span = .ofText (source.positionAt (byteLength before)) (takeBytes extent (c :: ahead)) ∧
    scan (f.span.start.col == 1) (c :: ahead) = .error ⟨f.complaint, extent⟩

theorem In.meets (h : r.In source before) (ht : r.Holds t) : Meets source t := by
  have htext : source.text = before ++ (r.held ++ r.ahead) := by
    rw [h.text, List.append_assoc]
  have hstart : t.span.start = source.positionAt (byteLength before) := by
    rw [ht.span, ← h.offset]
    exact h.position
  have hlexeme : t.lexeme = [] ↔ t.kind = .eof := by
    constructor
    · intro hempty
      have hscan := ht.scanned
      cases hrest : r.held ++ r.ahead with
      | nil =>
        rw [hrest] at hscan
        exact (Prod.mk.inj (Except.ok.inj hscan)).1.symm
      | cons c cs =>
        rw [hrest] at hscan
        have hpos := (proper_scan_cons _ c cs _ _ hscan).2
        rw [hempty] at hpos
        exact absurd hpos (Nat.lt_irrefl 0)
    · intro heof
      rw [ht.lexeme]
      exact ht.held_of_eof heof
  refine ⟨by rw [ht.span]; exact Position.le_lastOf _ _, fun hsolid => ?_, hlexeme⟩
  have hahead : ∀ c ∈ (r.held ++ r.ahead).head?, Source.isLineEnd c = false := by
    intro c hc
    obtain ⟨cs, hcs⟩ := List.head?_eq_some_iff.mp hc
    rw [← Bool.not_eq_true]
    intro hend
    obtain ⟨n, hscan⟩ := scan_of_isLineEnd hend (r.position.col == 1) cs
    have hnewline := ht.scanned
    rw [hcs, hscan] at hnewline
    obtain ⟨hkind, -⟩ := Prod.mk.inj (Except.ok.inj hnewline)
    rw [← hkind] at hsolid
    cases hsolid
  refine ⟨r.held ++ r.ahead, hstart ▸ Source.shows_positionAt htext hahead, hahead, ?_⟩
  rw [ht.lexeme]
  cases hheld : r.held with
  | nil => rw [← hheld, ht.rest_of_eof (hlexeme.mp (ht.lexeme.trans hheld)), hheld]
  | cons c cs => rfl

theorem In.misreads (h : r.In source before) (hf : r.Fails source f) :
    ∃ c, Misreads source f c := by
  obtain ⟨extent, part, hscan, rfl, hspan, -, -⟩ := hf.misread
  cases hahead : r.ahead with
  | nil => rw [hahead] at hscan; cases hscan
  | cons c ahead =>
    have hposition := h.position
    rw [h.offset] at hposition
    rw [hahead] at hscan hspan
    refine ⟨c, before, ahead, extent, ?_, hposition ▸ hspan, ?_⟩
    · rw [h.text, hf.held, List.append_nil, hahead]
    · rw [hspan]
      exact hscan

theorem step_keeps_skipTrivia (r : Reader) : r.step.2.skipTrivia = r.skipTrivia := by
  unfold step
  dsimp only
  split <;> rfl

theorem nextWithin_keeps_skipTrivia (fuel : Nat) (r : Reader) :
    (r.nextWithin fuel).2.skipTrivia = r.skipTrivia := by
  induction fuel generalizing r with
  | zero => exact r.step_keeps_skipTrivia
  | succ fuel ih =>
    have hstep := r.step_keeps_skipTrivia
    unfold nextWithin
    split
    · next heq => rw [heq] at hstep; exact hstep
    · next heq =>
      rw [heq] at hstep
      split
      · exact (ih _).trans hstep
      · exact hstep

/-- What a reader gives to the end of a text was read at places of the text. A reader that skips
    trivia gives none. -/
theorem In.readWithin (fuel : Nat) (h : r.In source before) :
    (∀ t ∈ (r.readWithin fuel).1, Meets source t ∧ (r.skipTrivia && t.kind.isTrivia) = false) ∧
      (∀ t, (r.readWithin fuel).2 = .ok t →
        Meets source t ∧ (r.skipTrivia && t.kind.isTrivia) = false) ∧
      ∀ f, (r.readWithin fuel).2 = .error f → ∃ c, Misreads source f c := by
  have htoken {r r' : Reader} {t : Token} {before : List Char} (h : r.In source before)
      (hnext : r.next = (.ok t, r')) :
      Meets source t ∧ (r.skipTrivia && t.kind.isTrivia) = false := by
    obtain ⟨before', hin⟩ := h.next
    have hskip : r.next.2.skipTrivia = r.skipTrivia := r.nextWithin_keeps_skipTrivia _
    rw [hnext] at hin hskip
    have hholds := next_holds hnext
    exact ⟨hin.meets hholds, hskip ▸ hholds.wanted⟩
  have hfault {r r' : Reader} {f : Fault} {before : List Char} (h : r.In source before)
      (hnext : r.next = (.error f, r')) : ∃ c, Misreads source f c := by
    obtain ⟨before', hin⟩ := h.next
    rw [hnext] at hin
    exact hin.misreads (h.next_fails hnext)
  induction fuel generalizing r before with
  | zero =>
    rw [Reader.readWithin]
    refine ⟨List.forall_mem_nil _, fun t ht => ?_, fun f hf => ?_⟩
    · exact htoken h (Prod.ext ht rfl)
    · exact hfault h (Prod.ext hf rfl)
  | succ fuel ih =>
    rw [Reader.readWithin]
    split
    · next f r' hnext =>
      refine ⟨List.forall_mem_nil _, by rintro _ ⟨⟩, ?_⟩
      rintro _ ⟨⟩
      exact hfault h hnext
    · next t r' hnext =>
      split
      · refine ⟨List.forall_mem_nil _, ?_, by rintro _ ⟨⟩⟩
        rintro _ ⟨⟩
        exact htoken h hnext
      · obtain ⟨before', hin⟩ := h.next
        have hskip : r.next.2.skipTrivia = r.skipTrivia := r.nextWithin_keeps_skipTrivia _
        rw [hnext] at hin hskip
        obtain ⟨hitems, hstop, herror⟩ := ih hin
        rw [hskip] at hitems hstop
        exact ⟨List.forall_mem_cons.mpr ⟨htoken h hnext, hitems⟩, hstop, herror⟩

end Reader

/-- The tokens that a parser is fed were read at places of the text and are not trivia. -/
theorem Feed.meets_of_has {source : Source} {t : Token} (h : (Feed.ofText source.text).Has t) :
    Reader.Meets source t ∧ t.kind.isTrivia = false := by
  obtain ⟨hitems, hstop, -⟩ := (Reader.in_ofText source true).readWithin
    ((Reader.ofText source.text true).held.length + source.text.length + 1)
  rcases h with hin | hlast
  · exact hitems t hin
  · exact hstop t hlast

/-! ## Diagnostics -/

/-- What a fault is about, and the first character of that: a text that cannot be read, a token that
    was read, or the end of the text. -/
inductive Fault.PointsAt (source : Source) (f : Fault) : Option Char → Prop where
  | misread {c} : Reader.Misreads source f c → PointsAt source f (some c)
  | token {t c lexeme} : (Feed.ofText source.text).Has t → t.lexeme = c :: lexeme →
      f.span = t.span → f.complaint.About t → PointsAt source f (some c)
  | eof {t} : (Feed.ofText source.text).Has t → t.kind = .eof → f.span = t.span →
      f.complaint.About t → PointsAt source f none

namespace Source

variable {source : Source} {f : Fault}

/-- What a fault points at is shown where its span starts. -/
theorem shows_of_pointsAt {first : Option Char} (h : f.PointsAt source first) :
    f.span.start.le f.span.stop = true ∧ ∃ ahead, source.Shows f.span.start ahead ∧
      (∀ c ∈ ahead.head?, isLineEnd c = false) ∧ ahead.head? = first := by
  cases h with
  | @misread c h =>
    obtain ⟨before, ahead, extent, htext, hspan, hscan⟩ := h
    have hc : ∀ d ∈ (c :: ahead).head?, isLineEnd d = false := by
      rintro _ ⟨⟩
      rw [← Bool.not_eq_true]
      intro hend
      obtain ⟨n, hnewline⟩ := scan_of_isLineEnd hend (f.span.start.col == 1) ahead
      cases hscan.symm.trans hnewline
    refine ⟨by rw [hspan]; exact Position.le_lastOf _ _, c :: ahead, ?_, hc, rfl⟩
    rw [hspan]
    exact shows_positionAt htext hc
  | token ht hlexeme hspan =>
    obtain ⟨hmeets, hsolid⟩ := Feed.meets_of_has ht
    obtain ⟨ahead, hshows, hahead, hhead⟩ := hmeets.shows hsolid
    rw [hspan]
    exact ⟨hmeets.start_le_stop, ahead, hshows, hahead, by rw [hhead, hlexeme]; rfl⟩
  | eof ht hkind hspan =>
    obtain ⟨hmeets, hsolid⟩ := Feed.meets_of_has ht
    obtain ⟨ahead, hshows, hahead, hhead⟩ := hmeets.shows hsolid
    rw [hspan]
    have hempty := hmeets.lexeme.mpr hkind
    exact ⟨hmeets.start_le_stop, ahead, hshows, hahead, by rw [hhead, hempty]; rfl⟩

theorem pointsAt_of_tokenize (h : tokenize source.text = .error f) :
    ∃ first, f.PointsAt source first := by
  obtain ⟨-, -, herror⟩ := (Reader.in_ofText source false).readWithin
    ((Reader.ofText source.text false).held.length + source.text.length + 1)
  unfold tokenize at h
  split at h
  · cases h
  · next heq =>
    cases h
    obtain ⟨c, hc⟩ := herror f (congrArg Prod.snd heq)
    exact ⟨some c, .misread hc⟩

theorem pointsAt_of_blames (h : (Feed.ofText source.text).Blames f) :
    ∃ first, f.PointsAt source first := by
  rcases h with hstop | ⟨t, ht, hspan, habout⟩
  · obtain ⟨-, -, herror⟩ := (Reader.in_ofText source true).readWithin
      ((Reader.ofText source.text true).held.length + source.text.length + 1)
    obtain ⟨c, hc⟩ := herror f hstop
    exact ⟨some c, .misread hc⟩
  · cases hlexeme : t.lexeme with
    | nil =>
      have hkind := (Feed.meets_of_has ht).1.lexeme.mp hlexeme
      exact ⟨none, .eof ht hkind hspan habout⟩
    | cons c lexeme => exact ⟨some c, .token ht hlexeme hspan habout⟩

/-- A source that is not a program gets the report of a fault that points at something. -/
theorem exists_fault_of_parse {d : Diagnostic} (h : parse source = .error d) :
    ∃ (f : Fault) (first : Option Char), d = f.diagnose source ∧ f.PointsAt source first := by
  unfold parse at h
  rcases parseText_blames source.text with ⟨b, feed, hdone⟩ | ⟨f, hfault, hblames⟩
  · rw [hdone] at h
    cases h
  · rw [hfault] at h
    cases h
    obtain ⟨first, hfirst⟩ := pointsAt_of_blames hblames
    exact ⟨f, first, rfl, hfirst⟩

/-- Whether reading or parsing a source fails, the diagnostic names the source and the category of
    its code, and quotes a line that the source has, without its end. What the diagnostic is about
    starts at its column in that line: the first character stands there, or the line ends there if
    it is about the end of the text. -/
theorem diagnostic_quotes {d : Diagnostic}
    (h : (∃ f, tokenize source.text = .error f ∧ d = f.diagnose source) ∨
      parse source = .error d) :
    d.file = source.name ∧ d.category = d.code.category ∧
      d.span.start.le d.span.stop = true ∧
      ∃ (f : Fault) (first : Option Char) (row : List Char),
        d = f.diagnose source ∧ f.PointsAt source first ∧
        source.line? d.span.start.line = some row ∧
        1 ≤ d.span.start.line ∧ (lines source.text)[d.span.start.line - 1]? = some row ∧
        d.sourceLine = String.ofList row ∧
        1 ≤ d.span.start.col ∧ d.span.start.col ≤ row.length + 1 ∧
        row[d.span.start.col - 1]? = first := by
  have hfault : ∃ (f : Fault) (first : Option Char),
      d = f.diagnose source ∧ f.PointsAt source first := by
    rcases h with ⟨f, hf, hd⟩ | hparse
    · obtain ⟨first, hfirst⟩ := pointsAt_of_tokenize hf
      exact ⟨f, first, hd, hfirst⟩
    · exact exists_fault_of_parse hparse
  obtain ⟨f, first, rfl, hpoints⟩ := hfault
  obtain ⟨hle, ahead, hshows, hahead, rfl⟩ := shows_of_pointsAt hpoints
  obtain ⟨row, hline, hfirst, hlast, hhead⟩ := hshows.exists_line hahead
  obtain ⟨index, hindex⟩ : ∃ index, f.span.start.line = index + 1 := by
    cases hnumber : f.span.start.line with
    | zero => rw [hnumber] at hline; cases hline
    | succ index => exact ⟨index, rfl⟩
  refine ⟨rfl, rfl, hle, f, ahead.head?, row, rfl, hpoints, hline, ?_, ?_, ?_, hfirst, hlast,
    hhead⟩
  · exact hindex ▸ Nat.le_add_left 1 index
  · show (lines source.text)[f.span.start.line - 1]? = _
    rw [hindex, Nat.add_sub_cancel, ← line?_eq_getElem?_lines, ← hindex]
    exact hline
  · show String.ofList ((source.line? f.span.start.line).getD []) = _
    rw [hline]
    rfl

/-- An assignment, and behind a line end of two characters one without its value. -/
def missingValue : Source := .ofString "p" "s.x = 1\r\ns.y = )"

/-- The second line is quoted without its end, and the parenthesis is its seventh character. -/
theorem diagnostic_quotes_missingValue :
    ∃ d row, parse missingValue = .error d ∧ d.file = "p" ∧ missingValue.line? 2 = some row ∧
      d.sourceLine = String.ofList row ∧ 7 ≤ row.length + 1 ∧
      ∃ (f : Fault) (first : Option Char), f.PointsAt missingValue first ∧ row[6]? = first := by
  have hparse : (match parse missingValue with
      | .ok _ => false
      | .error d => decide (d.span.start = ⟨2, 7⟩)) = true := by
    decide +kernel
  split at hparse
  · cases hparse
  · next d hd =>
    have hstart := of_decide_eq_true hparse
    obtain ⟨hfile, -, -, f, first, row, -, hpoints, hline, -, -, hquoted, -, hlast, hhead⟩ :=
      diagnostic_quotes (.inr hd)
    rw [hstart] at hline hlast hhead
    exact ⟨d, row, hd, hfile, hline, hquoted, hlast, f, first, hpoints, hhead⟩

end Source

end TierScript
