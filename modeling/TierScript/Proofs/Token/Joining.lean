import TierScript.Proofs.Token.Cursor
import TierScript.Proofs.Token.Pieces

/-!
# Texts in the lines of a longer text

Where a text stands does not matter for its tokens, as long as it begins and ends with a line.

* `scan_append_newline`: what is scanned before the end of a text is scanned before a line feed too.
  Only a carriage return at the end becomes one token with the line feed.
* `Reader.moved`: a reader further down in a text. It meets the same tokens further down.
* `Reader.Lexes.join`: the tokens of two texts that are joined by a line with a semicolon are the
  tokens of the first, the semicolon, and the tokens of the second, moved; line ends apart.
-/

namespace TierScript

/-! ## Scanning before a line feed -/

namespace Scan

/-- The first outcome is a fault, or the second is the same. -/
def Stable (r r' : Except Misread (Kind × Nat)) : Prop := ∀ e, r = .ok e → r' = .ok e

theorem Stable.refl (r : Except Misread (Kind × Nat)) : Stable r r := fun _ h => h

theorem Stable.of_eq {r r' : Except Misread (Kind × Nat)} (h : r' = r) : Stable r r' := by
  rw [h]
  exact .refl r

theorem Stable.error (m : Misread) (r : Except Misread (Kind × Nat)) : Stable (.error m) r := nofun

theorem Stable.ite {p q : Prop} [Decidable p] [Decidable q]
    {a b a' b' : Except Misread (Kind × Nat)} (hpq : q ↔ p) (ha : p → Stable a a')
    (hb : ¬ p → Stable b b') :
    Stable (if p then a else b) (if q then a' else b') := by
  by_cases hp : p
  · rw [if_pos hp, if_pos (hpq.mpr hp)]
    exact ha hp
  · rw [if_neg hp, if_neg (mt hpq.mp hp)]
    exact hb hp

variable {cs : List Char} (after : List Char)

theorem head?_append_newline {c : Char} (hc : c ≠ '\n') :
    (cs ++ '\n' :: after).head? = some c ↔ cs.head? = some c := by
  cases cs with
  | nil => simp [hc.symm]
  | cons => rfl

theorem takeWhile_append_newline {p : Char → Bool} (hp : p '\n' = false) (cs : List Char) :
    (cs ++ '\n' :: after).takeWhile p = cs.takeWhile p := by
  induction cs with
  | nil => simp [hp]
  | cons c cs ih => simp only [List.cons_append, List.takeWhile_cons, ih]

theorem oneOrTwo_append_newline {second : Char} (hsecond : second ≠ '\n') (cs : List Char)
    (single double : Kind) :
    oneOrTwo (cs ++ '\n' :: after) second single double = oneOrTwo cs second single double := by
  simp only [oneOrTwo, head?_append_newline after hsecond]

theorem commentEnd?_append_newline {n : Nat} (h : commentEnd? cs = some n) :
    commentEnd? (cs ++ '\n' :: after) = some n := by
  induction cs generalizing n with
  | nil => cases h
  | cons c cs ih =>
    have hslash : (cs ++ '\n' :: after).head? = some '/' ↔ cs.head? = some '/' :=
      head?_append_newline after (by decide)
    simp only [List.cons_append, commentEnd?, hslash] at h ⊢
    split at h
    · next hend => rwa [if_pos hend]
    · next hend =>
      obtain ⟨k, hk, rfl⟩ := Option.map_eq_some_iff.mp h
      rw [if_neg hend, ih hk]
      rfl

theorem stringLength_append {bytes count n : Nat} (h : stringLength bytes count cs = .ok n) :
    stringLength bytes count (cs ++ after) = .ok n := by
  fun_induction stringLength bytes count cs with
  | case2 => rwa [List.cons_append, Literal.stringLength_quote]
  | case5 bytes count e es hshort _ _ ih =>
    rw [List.cons_append, List.cons_append, Literal.stringLength_short hshort]
    exact ih h
  | case6 bytes count h₁ h₂ h₃ h₄ rest hhex _ _ _ ih =>
    rw [List.cons_append, List.cons_append, List.cons_append, List.cons_append, List.cons_append,
      List.cons_append, Literal.stringLength_hex hhex]
    exact ih h
  | case10 bytes count c cs hquote hline hslash ih =>
    rw [List.cons_append, Literal.stringLength_plain hquote hslash (Bool.eq_false_iff.mpr hline)]
    exact ih h
  | case1 | case3 | case4 | case7 | case8 | case9 => cases h

/-- A line feed is not a blank within a line, so that nothing after it is looked at. -/
theorem afterGap_append_newline (cs : List Char) :
    afterGap (cs ++ '\n' :: after) = (afterGap cs).or (some '\n') := by
  induction cs with
  | nil => rfl
  | cons c cs ih =>
    unfold afterGap at ih ⊢
    rw [List.cons_append, List.dropWhile_cons, List.dropWhile_cons]
    split
    · exact ih
    · rfl

theorem isArithName_append_newline (cs : List Char) :
    isArithName (cs ++ '\n' :: after) = isArithName cs := by
  cases cs with
  | nil => rfl
  | cons c cs =>
    simp only [List.cons_append, isArithName, afterGap_append_newline]
    cases afterGap cs <;> rfl

theorem wordKind_append_newline (word cs : List Char) :
    wordKind word (cs ++ '\n' :: after) = wordKind word cs := by
  have hopen : (afterGap cs).or (some '\n') = some '(' ↔ afterGap cs = some '(' := by
    cases afterGap cs <;> simp
  unfold wordKind
  simp only [afterGap_append_newline, isArithName_append_newline, hopen]
  cases afterGap cs with
  | some c => rfl
  | none => rfl

theorem scanWord_append_newline (cs : List Char) :
    scanWord (cs ++ '\n' :: after) = scanWord cs := by
  have hlength := (List.takeWhile_prefix (l := cs) isWordPart).length_le
  unfold scanWord
  rw [takeWhile_append_newline after (by decide)]
  simp only [List.drop_append_of_le_length hlength, wordKind_append_newline]

theorem lineLength_append_newline (cs : List Char) :
    lineLength (cs ++ '\n' :: after) = lineLength cs := by
  rw [lineLength, lineLength, takeWhile_append_newline after (by decide)]

end Scan

open Scan in
/-- The end of a text can be replaced by a line feed and whatever follows. -/
theorem scan_append_newline (firstColumn : Bool) (c : Char) (cs after : List Char)
    (hcr : c :: cs ≠ ['\r']) :
    Stable (scan firstColumn (c :: cs)) (scan firstColumn (c :: cs ++ '\n' :: after)) := by
  have hone (x : Char) (hx : x ≠ '\n') (single double : Kind) :
      Stable (.ok (oneOrTwo cs x single double))
        (.ok (oneOrTwo (cs ++ '\n' :: after) x single double)) :=
    .of_eq (by rw [oneOrTwo_append_newline after hx])
  rw [List.cons_append]
  unfold scan
  simp only [← List.cons_append]
  refine .ite .rfl (fun _ => .of_eq ?_) fun _ => ?_
  · rw [takeWhile_append_newline after (by decide)]
  refine .ite .rfl (fun _ => .refl _) fun _ => ?_
  refine .ite .rfl (fun hc => ?_) fun _ => ?_
  · subst hc
    cases cs with
    | nil => exact absurd rfl hcr
    | cons d cs => exact .refl _
  refine .ite .rfl (fun _ => .ite .rfl (fun _ => .of_eq ?_) fun _ => .refl _) fun _ => ?_
  · rw [lineLength_append_newline]
  iterate 6 refine .ite .rfl (fun _ => .refl _) fun _ => ?_
  iterate 2
    refine .ite .rfl (fun _ => .ite (head?_append_newline after (by decide)) (fun _ => .refl _)
      fun _ => .refl _) fun _ => ?_
  iterate 6 refine .ite .rfl (fun _ => hone _ (by decide) _ _) fun _ => ?_
  iterate 2 refine .ite .rfl (fun _ => .refl _) fun _ => ?_
  refine .ite .rfl (fun _ => ?_) fun _ => ?_
  · refine .ite (head?_append_newline after (by decide)) (fun _ => .of_eq ?_) fun _ => ?_
    · rw [lineLength_append_newline]
    refine .ite (head?_append_newline after (by decide)) (fun hdot => ?_) fun _ => .refl _
    cases cs with
    | nil => cases hdot
    | cons d cs =>
      cases hend : commentEnd? cs with
      | none => simpa only [List.drop_succ_cons, List.drop_zero, hend] using .error _ _
      | some n =>
        have hend' := commentEnd?_append_newline after hend
        simpa only [List.cons_append, List.drop_succ_cons, List.drop_zero, hend, hend'] using
          .refl _
  refine .ite .rfl (fun _ => ?_) fun _ => ?_
  · cases hlength : stringLength 0 0 cs with
    | error m => exact .error _ _
    | ok n => exact .of_eq (by rw [stringLength_append _ hlength])
  refine .ite .rfl (fun _ => .of_eq ?_) fun _ => ?_
  · rw [takeWhile_append_newline after (by decide)]
  refine .ite .rfl (fun _ => .of_eq ?_) fun _ => .refl _
  rw [scanWord_append_newline]

/-! ## Further down in a text -/

/-- The position a number of lines further down. -/
def Position.down (p : Position) (lines : Nat) : Position := ⟨p.line + lines, p.col⟩

/-- The span a number of lines further down. -/
def Span.down (s : Span) (lines : Nat) : Span := ⟨s.start.down lines, s.stop.down lines⟩

/-- The token a number of bytes and lines further down. -/
def Token.moved (bytes lines : Nat) (t : Token) : Token :=
  { t with offset := t.offset + bytes, span := t.span.down lines }

/-- The reader a number of bytes and lines further down. -/
def Reader.moved (bytes lines : Nat) (r : Reader) : Reader :=
  { r with offset := r.offset + bytes, position := r.position.down lines }

namespace Position

variable (p : Position) (lines : Nat)

theorem next_down (b : Bool) : (p.down lines).next b = (p.next b).down lines := by
  unfold next down
  split
  · rw [Nat.add_right_comm]
  · rfl

theorem after_down (next : Option Char) (cs : List Char) :
    (p.down lines).after next cs = (p.after next cs).down lines := by
  induction cs generalizing p with
  | nil => rfl
  | cons c cs ih => rw [after, after, next_down, ih]

theorem lastOf_down (cs : List Char) : (p.down lines).lastOf cs = (p.lastOf cs).down lines := by
  induction cs generalizing p with
  | nil => rfl
  | cons c cs ih =>
    cases cs with
    | nil => rfl
    | cons d cs => rw [lastOf, lastOf, next_down, ih]

end Position

theorem Token.solid_map_moved (bytes lines : Nat) (ts : List Token) :
    Token.solid (ts.map (Token.moved bytes lines)) =
      (Token.solid ts).map (Token.moved bytes lines) := by
  rw [solid, solid, List.filter_map]
  rfl

namespace Reader

open Token (solid)

variable {r r' : Reader} {t : Token} {ts us : List Token}

theorem step_moved (h : r.step = (.ok t, r')) (bytes lines : Nat) :
    (r.moved bytes lines).step = (.ok (t.moved bytes lines), r'.moved bytes lines) := by
  have hcommit : (r.moved bytes lines).commit = r.commit.moved bytes lines := by
    simp only [commit, moved, Position.after_down, Nat.add_right_comm]
  have hcol : (r.commit.moved bytes lines).position.col = r.commit.position.col := rfl
  have hahead : (r.commit.moved bytes lines).ahead = r.commit.ahead := rfl
  simp only [step] at h ⊢
  rw [hcommit, hcol, hahead]
  split at h
  · cases h
  · cases h
    simp only [Token.moved, moved, Span.ofText, Span.down, Position.lastOf_down]

theorem Lexes.moved (h : Lexes r ts) (bytes lines : Nat) :
    Lexes (r.moved bytes lines) (ts.map (Token.moved bytes lines)) := by
  induction h with
  | stop hstep ht => exact .stop (step_moved hstep bytes lines) ht
  | next hstep ht _ ih => exact .next (step_moved hstep bytes lines) ht ih

/-- Moving past the last token twice is the same as moving past it once. -/
theorem commit_step (r : Reader) : r.commit.step = r.step := by
  simp [step, commit, Position.after]

theorem Lexes.of_commit (h : Lexes r.commit ts) : Lexes r ts := by
  cases h with
  | stop hstep ht => exact .stop (r.commit_step ▸ hstep) ht
  | next hstep ht hrest => exact .next (r.commit_step ▸ hstep) ht hrest

/-! ## Lines one after another -/

/-- The next token is the first of a line. -/
def AtLineStart (r : Reader) : Prop := ∃ line, r.commit.position = ⟨line + 1, 1⟩

/-- The tokens up to the end, none of which is the end, and the reader behind them. -/
inductive Passes : Reader → List Token → Reader → Prop where
  | nil {r : Reader} : Passes r [] r
  | cons {r r₁ r' : Reader} {t : Token} {ts : List Token} : r.step = (.ok t, r₁) → t.kind ≠ .eof →
      Passes r₁ ts r' → Passes r (t :: ts) r'

theorem Passes.trans {r₁ : Reader} (h : Passes r ts r₁) (h' : Passes r₁ us r') :
    Passes r (ts ++ us) r' := by
  induction h with
  | nil => exact h'
  | cons hstep ht _ ih => exact .cons hstep ht (ih h')

theorem Passes.lexes (h : Passes r ts r') (h' : Lexes r' us) : Lexes r (ts ++ us) := by
  induction h with
  | nil => exact h'
  | cons hstep ht _ ih => exact .next hstep ht (ih h')

/-- A line end is one token, and the next token is the first of a line. -/
theorem passes_lineEnd (cs after : List Char) (hcs : cs = ['\n'] ∨ cs = ['\r', '\n'])
    (hahead : r.ahead = cs ++ after) :
    ∃ t r', Passes r [t] r' ∧ t.kind = .newline ∧ r'.ahead = after ∧
      r'.skipTrivia = r.skipTrivia ∧ r'.AtLineStart := by
  have hscan : scan (r.commit.position.col == 1) (cs ++ after) = .ok (.newline, cs.length) := by
    obtain rfl | rfl := hcs <;> rfl
  have hstep : r.step = (.ok ⟨.newline, cs, r.commit.offset, .ofText r.commit.position cs⟩,
      { r.commit with held := cs, ahead := after }) := by
    have hcommit : r.commit.ahead = cs ++ after := hahead
    simp only [step, hcommit, hscan, List.take_left, List.drop_left]
  refine ⟨_, _, .cons hstep (by simp) .nil, rfl, rfl, rfl, r.commit.position.line, ?_⟩
  obtain rfl | rfl := hcs <;> rfl

/-- Before the end of a text it makes no difference what comes after a line feed. -/
theorem step_append_newline (h : r.step = (.ok t, r')) (ht : t.kind ≠ .eof)
    (hcr : r.ahead ≠ ['\r']) (after : List Char) :
    step { r with ahead := r.ahead ++ '\n' :: after } =
      (.ok t, { r' with ahead := r'.ahead ++ '\n' :: after }) := by
  cases hahead : r.ahead with
  | nil =>
    obtain ⟨u, r'', hstep, hu, -⟩ := step_of_nil hahead
    cases h.symm.trans hstep
    exact absurd hu ht
  | cons c cs =>
    rw [hahead] at hcr
    have hcommit : commit { r with ahead := c :: cs ++ '\n' :: after } =
        { r.commit with ahead := c :: cs ++ '\n' :: after } := by
      simp [commit, hahead]
    have hkept : r.commit.ahead = c :: cs := hahead
    simp only [step, hkept] at h
    simp only [step, hcommit]
    split at h
    · cases h
    · next kind n hscan =>
      cases h
      have hn := scan_le _ _ _ _ hscan
      rw [scan_append_newline _ c cs after hcr _ hscan]
      simp only [List.take_append_of_le_length hn, List.drop_append_of_le_length hn]

theorem ahead_of_step_eof (h : r.step = (.ok t, r')) (ht : t.kind = .eof) : r.ahead = [] := by
  cases hahead : r.ahead with
  | nil => rfl
  | cons c cs =>
    have hkept : r.commit.ahead = c :: cs := hahead
    simp only [step, hkept] at h
    split at h
    · cases h
    · next kind n hscan =>
      cases h
      exact absurd ht (proper_scan_cons _ c cs kind n hscan).1

/-- A carriage return at the end of a text is a token of its own, and the text ends behind it. -/
theorem Lexes.of_return (h : Lexes r ts) (hcr : r.ahead = ['\r']) :
    ∃ t e, ts = [t, e] ∧ t.kind = .newline ∧ e.kind = .eof := by
  have hkept : r.commit.ahead = ['\r'] := hcr
  have hstep : r.step = (.ok ⟨.newline, ['\r'], r.commit.offset, .ofText r.commit.position ['\r']⟩,
      { r.commit with held := ['\r'], ahead := [] }) := by
    simp only [step, hkept]
    rfl
  cases h with
  | stop hstep' ht =>
    cases hstep.symm.trans hstep'
    cases ht
  | next hstep' ht hrest =>
    cases hstep.symm.trans hstep'
    cases hrest with
    | stop _ he => exact ⟨_, _, rfl, rfl, he⟩
    | next hend he =>
      obtain ⟨_, _, hstop, hkind, -⟩ :=
        step_of_nil (r := { r.commit with held := ['\r'], ahead := [] }) rfl
      cases hstop.symm.trans hend
      exact absurd hkind he

/-- A text that is followed by a line feed has its tokens, apart from its end and from line ends. -/
theorem Lexes.passes_line (h : Lexes r ts) (after : List Char) :
    ∃ us e r', solid ts = solid us ++ [e] ∧ e.kind = .eof ∧
      Passes { r with ahead := r.ahead ++ '\n' :: after } us r' ∧ r'.ahead = after ∧
      r'.skipTrivia = r.skipTrivia ∧ r'.AtLineStart := by
  have hsolid_newline {u : Token} (hu : u.kind = .newline) (us : List Token) :
      solid (u :: us) = solid us := by
    simp [solid, hu, Kind.isTrivia]
  have hsolid_eof {e : Token} (he : e.kind = .eof) : solid [e] = [e] := by
    simp [solid, he, Kind.isTrivia]
  induction h with
  | @stop r r' t hstep ht =>
    obtain ⟨u, r', hpass, hu, hahead, hskip, hstart⟩ :=
      passes_lineEnd (r := { r with ahead := r.ahead ++ '\n' :: after }) ['\n'] after
        (.inl rfl) (by rw [ahead_of_step_eof hstep ht]; rfl)
    exact ⟨[u], t, r', by rw [hsolid_newline hu, hsolid_eof ht]; rfl, ht, hpass, hahead, hskip,
      hstart⟩
  | @next r r₁ t ts hstep ht hrest ih =>
    by_cases hcr : r.ahead = ['\r']
    -- the carriage return and the line feed are one token
    · obtain ⟨t, e, heq, htk, he⟩ := (Lexes.next hstep ht hrest).of_return hcr
      obtain ⟨u, r', hpass, hu, hahead, hskip, hstart⟩ :=
        passes_lineEnd (r := { r with ahead := r.ahead ++ '\n' :: after }) ['\r', '\n'] after
          (.inr rfl) (by rw [hcr]; rfl)
      exact ⟨[u], e, r', by rw [heq, hsolid_newline htk, hsolid_eof he, hsolid_newline hu]; rfl, he,
        hpass, hahead, hskip, hstart⟩
    · obtain ⟨us, e, r', hsolid, he, hpass, hahead, hskip, hstart⟩ := ih
      have hcons : solid (t :: ts) = solid (t :: us) ++ [e] := by
        cases htrivia : t.kind.isTrivia <;> simp_all [solid]
      exact ⟨t :: us, e, r', hcons, he, .cons (step_append_newline hstep ht hcr after) ht hpass,
        hahead, hskip.trans (step_ok hstep ht).2, hstart⟩

/-- A line with a semicolon between two texts. -/
def separator : List Char := ['\n', ';', '\n']

/-- The tokens of two texts with a separator in between are those of the first text, a semicolon,
    and those of the second text further down, apart from trivia and from the end of the first. -/
theorem Lexes.join {a b : List Char} (ha : Lexes (ofText a false) ts)
    (hb : Lexes (ofText b false) us) :
    ∃ vs ts' e s bytes lines, Lexes (ofText (a ++ separator ++ b) false) vs ∧
      solid ts = ts' ++ [e] ∧ e.kind = .eof ∧ s.kind = .semicolon ∧
      solid vs = ts' ++ s :: (solid us).map (Token.moved bytes lines) := by
  obtain ⟨xs, e, r₁, hts, he, hfirst, hahead₁, hskip₁, -⟩ := ha.passes_line (';' :: '\n' :: b)
  obtain ⟨s, r₂, hstep, hs, -, hahead₂, -⟩ :=
    step_of_scan (r := r₁) (p := .fixed .semicolon) hahead₁ rfl
  have hskip₂ := (step_ok hstep (by rw [hs]; nofun)).2
  obtain ⟨n, r₃, hnewline, hn, hahead₃, hskip₃, line, hposition⟩ :=
    passes_lineEnd ['\n'] b (.inl rfl) hahead₂
  have hthird : (ofText b false).moved r₃.commit.offset line = r₃.commit := by
    have hskip : r₃.commit.skipTrivia = false := (hskip₃.trans hskip₂).trans hskip₁
    have hkept : r₃.commit.ahead = b := hahead₃
    rw [show r₃.commit = ⟨[], r₃.commit.ahead, r₃.commit.offset, r₃.commit.position,
      r₃.commit.skipTrivia⟩ from rfl, hskip, hkept, hposition]
    simp [Reader.moved, ofText, Position.down, Position.first, Nat.add_comm]
  have hrest : Lexes r₃ (us.map (Token.moved r₃.commit.offset line)) := by
    have hmoved := hb.moved r₃.commit.offset line
    rw [hthird] at hmoved
    exact hmoved.of_commit
  have hmiddle : Passes r₁ [s, n] r₃ := .cons hstep (by rw [hs]; nofun) hnewline
  have htext : { ofText a false with ahead := (ofText a false).ahead ++ '\n' :: ';' :: '\n' :: b } =
      ofText (a ++ separator ++ b) false := by
    simp [ofText, separator]
  rw [htext] at hfirst
  refine ⟨_, solid xs, e, s, r₃.commit.offset, line, (hfirst.trans hmiddle).lexes hrest, hts, he,
    hs, ?_⟩
  have hsolid : solid [s, n] = [s] := by
    simp [solid, hs, hn, Piece.kind, Kind.isTrivia]
  rw [← Token.solid_map_moved]
  simp only [solid, List.filter_append] at hsolid ⊢
  rw [hsolid, List.append_assoc, List.singleton_append]

end Reader

end TierScript
