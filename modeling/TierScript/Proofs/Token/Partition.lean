import TierScript.Proofs.Token.Cursor

/-!
# Tokens partition a text

Every character of a text belongs to exactly one token.

* `Reader.Breaks r ts f`: a reader meets the tokens `ts`, and then the fault `f`.
* `tokens_partition`: the tokens of a text follow each other without a gap and make up the text. If
  a fault is met, the tokens before it make up a part of the text in front, and the fault is where
  that part ends.
-/

namespace TierScript

open Text (byteLength)

/-- The tokens follow each other without a gap, the first one from the byte offset `n` on. -/
def Token.Consecutive : Nat → List Token → Prop
  | _, [] => True
  | n, t :: ts => t.offset = n ∧ Consecutive (n + byteLength t.lexeme) ts

/-- The characters of tokens one after another. -/
def Token.chars (ts : List Token) : List Char := ts.flatMap Token.lexeme

namespace Token

@[simp] theorem chars_nil : chars [] = [] := rfl

@[simp] theorem chars_cons (t : Token) (ts : List Token) : chars (t :: ts) = t.lexeme ++ chars ts :=
  rfl

theorem chars_append (ts us : List Token) : chars (ts ++ us) = chars ts ++ chars us :=
  List.flatMap_append

end Token

namespace Reader

open Token (chars Consecutive)

variable {source : Source} {before : List Char} {r r' : Reader} {t : Token} {ts : List Token}
  {f : Fault}

/-! ## Texts with a fault -/

/-- The reader meets the tokens `ts`, none of which is the end of the text, and then a fault. -/
inductive Breaks : Reader → List Token → Fault → Prop where
  | stop {r r' : Reader} {f : Fault} : r.step = (.error f, r') → Breaks r [] f
  | next {r r' : Reader} {t : Token} {ts : List Token} {f : Fault} : r.step = (.ok t, r') →
      t.kind ≠ .eof → Breaks r' ts f → Breaks r (t :: ts) f

theorem breaks_of_readWithin {fuel : Nat} (hskip : r.skipTrivia = false)
    (hfuel : r.ahead.length ≤ fuel) (h : r.readWithin fuel = (ts, .error f)) : Breaks r ts f := by
  induction fuel generalizing r ts with
  | zero =>
    obtain ⟨t, r', hstep, -, -⟩ := step_of_nil (List.length_eq_zero_iff.mp (Nat.le_zero.mp hfuel))
    rw [readWithin, next_eq_step hskip, hstep] at h
    cases h
  | succ fuel ih =>
    rw [readWithin, next_eq_step hskip] at h
    split at h
    · next hstep =>
      cases h
      exact .stop hstep
    · next t r' hstep =>
      split at h
      · cases h
      · next ht =>
        obtain ⟨hlength, hskip'⟩ := step_ok hstep ht
        cases hrest : r'.readWithin fuel with
        | mk tokens stop =>
          rw [hrest] at h
          cases h
          exact .next hstep ht (ih (hskip'.trans hskip) (by omega) hrest)

theorem breaks_of_tokenize {text : List Char} (h : tokenize text = .error f) :
    ∃ ts, Breaks (ofText text false) ts f := by
  unfold tokenize at h
  split at h
  · cases h
  · next tokens fault hread =>
    cases h
    exact ⟨tokens, breaks_of_readWithin rfl (by simp [ofText]) hread⟩

/-- Asking for one token after another gives the tokens and then the fault. -/
theorem Breaks.performAll (h : Breaks r ts f) (hskip : r.skipTrivia = false)
    (last : Option Token) :
    Session.performAll ⟨r, last⟩ (List.replicate (ts.length + 1) .next) =
      ts.map .token ++ [.fault f] := by
  induction h generalizing last with
  | stop hstep =>
    simp [List.replicate, Session.performAll, Session.perform, next_eq_step hskip, hstep]
  | @next r r' t ts f hstep ht _ ih =>
    have hrest := ih ((step_ok hstep ht).2.trans hskip) (some t)
    rw [List.length_cons, List.replicate_succ, Session.performAll]
    simp only [Session.perform, next_eq_step hskip, hstep, hrest, List.map_cons, List.cons_append]

/-! ## One token after another -/

/-- A token starts where the reader has come to, and the reader goes on behind it. -/
theorem In.step_token (h : r.In source before) (hskip : r.skipTrivia = false)
    (hstep : r.step = (.ok t, r')) :
    r'.In source (before ++ r.held) ∧ r'.Holds t ∧ t.offset = byteLength (before ++ r.held) := by
  have hholds := step_holds hstep (by rw [hskip]; rfl)
  have hnext := h.step
  rw [hstep] at hnext
  exact ⟨hnext, hholds, hholds.offset.trans hnext.offset⟩

theorem Holds.lexeme_ne_nil (h : r.Holds t) (ht : t.kind ≠ .eof) : t.lexeme ≠ [] := by
  have hscan := h.scanned
  cases hrest : r.held ++ r.ahead with
  | nil =>
    rw [hrest, scan] at hscan
    exact absurd (congrArg Prod.fst (Except.ok.inj hscan)).symm ht
  | cons c cs =>
    rw [hrest] at hscan
    exact List.ne_nil_of_length_pos (proper_scan_cons _ c cs _ _ hscan).2

/-- What is left of a text is made up of the tokens that are met. -/
theorem Lexes.partition (h : Lexes r ts) (hr : r.In source before) (hskip : r.skipTrivia = false) :
    before ++ r.held ++ chars ts = source.text ∧ Consecutive (byteLength (before ++ r.held)) ts ∧
      ∃ front last, ts = front ++ [last] ∧ last.kind = .eof ∧ last.lexeme = [] ∧
        ∀ t ∈ front, t.kind ≠ .eof ∧ t.lexeme ≠ [] := by
  induction h generalizing before with
  | @stop r r' t hstep ht =>
    obtain ⟨hr', hholds, hoffset⟩ := hr.step_token hskip hstep
    have hrest := hholds.rest_of_eof ht
    have hlexeme : t.lexeme = [] := hholds.lexeme.trans (hholds.held_of_eof ht)
    have htext := hr'.text
    rw [List.append_assoc, hrest, List.append_nil] at htext
    refine ⟨?_, ⟨hoffset, trivial⟩, [], t, rfl, ht, hlexeme, nofun⟩
    rw [Token.chars_cons, hlexeme, htext]
    simp
  | @next r r' t ts hstep ht _ ih =>
    obtain ⟨hr', hholds, hoffset⟩ := hr.step_token hskip hstep
    obtain ⟨htext, hoffsets, front, last, hts, hkind, hempty, hfront⟩ :=
      ih hr' ((step_ok hstep ht).2.trans hskip)
    rw [← hholds.lexeme] at htext hoffsets
    refine ⟨?_, ⟨hoffset, ?_⟩, t :: front, last, by rw [hts]; rfl, hkind, hempty, ?_⟩
    · rw [Token.chars_cons, ← htext]
      simp only [List.append_assoc]
    · rw [← Text.byteLength_append]
      exact hoffsets
    · intro u hu
      rcases List.mem_cons.mp hu with rfl | hu
      · exact ⟨ht, hholds.lexeme_ne_nil ht⟩
      · exact hfront u hu

/-- The tokens before a fault make up the text in front of it, and the fault is found there. -/
theorem Breaks.partition (h : Breaks r ts f) (hr : r.In source before)
    (hskip : r.skipTrivia = false) :
    ∃ rest, source.text = before ++ r.held ++ chars ts ++ rest ∧ rest ≠ [] ∧
      f.span.start = source.positionAt (byteLength (before ++ r.held ++ chars ts)) := by
  induction h generalizing before with
  | @stop r r' f hstep =>
    have hfails := hr.step_fails hstep
    have hr' := hr.step
    rw [hstep] at hr'
    obtain ⟨extent, part, hscan, -, hspan, -, -⟩ := hfails.misread
    have htext := hr'.text
    rw [hfails.held] at htext
    refine ⟨r'.ahead, by simpa using htext, ?_, ?_⟩
    · intro hend
      rw [hend] at hscan
      cases hscan
    · rw [hspan, Token.chars_nil, List.append_nil, ← hr'.offset, ← hr'.position]
      rfl
  | @next r r' t ts f hstep ht _ ih =>
    obtain ⟨hr', hholds, -⟩ := hr.step_token hskip hstep
    obtain ⟨rest, htext, hrest, hstart⟩ := ih hr' ((step_ok hstep ht).2.trans hskip)
    rw [← hholds.lexeme] at htext hstart
    refine ⟨rest, ?_, hrest, ?_⟩
    · rw [htext, Token.chars_cons]
      simp only [List.append_assoc]
    · rw [hstart, Token.chars_cons]
      simp only [List.append_assoc]

end Reader

/-- The tokens of a text, the last and only the last of which is the end and empty, follow each
    other without a gap and make up the text. Where there is a fault instead, the tokens that are
    read before it make up less than the text, and the fault starts at the position where they
    end. -/
theorem tokens_partition (source : Source) :
    match tokenize source.text with
    | .ok tokens =>
      tokens.flatMap Token.lexeme = source.text ∧ Token.Consecutive 0 tokens ∧
        ∃ front last, tokens = front ++ [last] ∧ last.kind = .eof ∧ last.lexeme = [] ∧
          ∀ t ∈ front, t.kind ≠ .eof ∧ t.lexeme ≠ []
    | .error fault =>
      ∃ (tokens : List Token) (rest : List Char),
        (Reader.Session.start source.text false).performAll
            (List.replicate (tokens.length + 1) .next) =
          tokens.map Reader.Answer.token ++ [Reader.Answer.fault fault] ∧
        source.text = tokens.flatMap Token.lexeme ++ rest ∧ rest ≠ [] ∧
        fault.span.start = source.positionAt (byteLength (tokens.flatMap Token.lexeme)) := by
  have hstart := Reader.in_ofText source false
  split
  · next tokens h => exact (Reader.lexes_of_tokenize h).partition hstart rfl
  · next fault h =>
    obtain ⟨tokens, hbreaks⟩ := Reader.breaks_of_tokenize h
    obtain ⟨rest, hpartition⟩ := hbreaks.partition hstart rfl
    exact ⟨tokens, rest, hbreaks.performAll rfl none, hpartition⟩

example : tokenize ['é', '\r', '\n', ' ', '#'] =
    .error ⟨.strayCharacter '#', ⟨⟨2, 2⟩, ⟨2, 2⟩⟩⟩ := by
  decide +kernel

end TierScript
