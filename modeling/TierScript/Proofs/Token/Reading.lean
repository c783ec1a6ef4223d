import TierScript.Program.Feed
import TierScript.Proofs.Token.Keyword

/-!
# Reading a whole text

`Reader.Lexes r ts` says that a reader goes through the rest of its text without a fault and meets
the tokens `ts`, trivia included, the last being the end of the text.

* `Reader.lexes_of_tokenize`: that is what `tokenize` gives.
* `Feed.ofText_of_lexes`: a parser is fed the same tokens without the trivia, and the end only where
  the text ends.
-/

namespace TierScript

/-! ## Every token but the last has a character -/

/-- The outcome of a scan that is not at the end of the text. -/
def Scan.Proper (r : Except Misread (Kind × Nat)) : Prop :=
  ∀ k n, r = .ok (k, n) → k ≠ .eof ∧ 0 < n

namespace Scan

theorem Proper.ok {k : Kind} {n : Nat} (hk : k ≠ .eof) (hn : 0 < n) : Proper (.ok (k, n)) := by
  rintro _ _ ⟨⟩
  exact ⟨hk, hn⟩

theorem Proper.error (m : Misread) : Proper (.error m) := nofun

theorem Proper.ite {p : Prop} [Decidable p] {a b : Except Misread (Kind × Nat)}
    (ha : p → Proper a) (hb : ¬ p → Proper b) : Proper (if p then a else b) := by
  split
  · exact ha ‹_›
  · exact hb ‹_›

theorem Proper.oneOrTwo {rest : List Char} {second : Char} {single double : Kind}
    (h₁ : single ≠ .eof) (h₂ : double ≠ .eof) :
    Proper (.ok (Scan.oneOrTwo rest second single double)) := by
  unfold Scan.oneOrTwo
  split
  · exact .ok h₂ (by decide)
  · exact .ok h₁ (by decide)

theorem length_takeWhile_pos {p : Char → Bool} {c : Char} {cs : List Char} (h : p c = true) :
    0 < ((c :: cs).takeWhile p).length := by
  simp [h]

theorem le_stringLength {bytes count n : Nat} {cs : List Char}
    (h : stringLength bytes count cs = .ok n) : count + 2 ≤ n := by
  fun_induction stringLength bytes count cs <;> grind

theorem wordKind_ne_eof (word after : List Char) : (wordKind word after).1 ≠ .eof := by
  unfold wordKind
  have hkeyword {k : Kind} (h : keyword? word = some k) : k ≠ .eof := by
    rintro rfl
    exact absurd (mem_keywords h) (by simp [keywords])
  grind

theorem Proper.scanWord {c : Char} {cs : List Char} (hc : isWordStart c = true) :
    Proper (.ok (Scan.scanWord (c :: cs))) := by
  refine .ok (wordKind_ne_eof _ _) (Nat.add_pos_left (length_takeWhile_pos ?_) _)
  unfold isWordStart at hc
  unfold isWordPart
  grind

end Scan

open Scan in
/-- Before the end of the text every token has a character and is not the end. -/
theorem proper_scan_cons (firstColumn : Bool) (c : Char) (cs : List Char) :
    Proper (scan firstColumn (c :: cs)) := by
  unfold scan
  refine .ite (fun hc => .ok nofun (length_takeWhile_pos hc)) fun _ => ?_
  refine .ite (fun _ => .ok nofun (by decide)) fun _ => ?_
  refine .ite (fun _ => .oneOrTwo nofun nofun) fun _ => ?_
  refine .ite (fun hc => ?_) fun _ => ?_
  · subst hc
    exact .ite (fun _ => .ok nofun (length_takeWhile_pos (by decide)))
      fun _ => .ok nofun (by decide)
  iterate 6 refine .ite (fun _ => .ok nofun (by decide)) fun _ => ?_
  iterate 2
    refine .ite (fun _ => .ite (fun _ => .ok nofun (by decide)) fun _ => .error _) fun _ => ?_
  iterate 6 refine .ite (fun _ => .oneOrTwo nofun nofun) fun _ => ?_
  iterate 2 refine .ite (fun _ => .ok nofun (by decide)) fun _ => ?_
  refine .ite (fun hc => ?_) fun _ => ?_
  · subst hc
    refine .ite (fun _ => .ok nofun (length_takeWhile_pos (by decide))) fun _ => ?_
    refine .ite (fun _ => ?_) fun _ => .ok nofun (by decide)
    split
    · exact .ok nofun (by omega)
    · exact .error _
  refine .ite (fun _ => ?_) fun _ => ?_
  · cases h : stringLength 0 0 cs with
    | error m => exact .error _
    | ok n => exact .ok nofun (by have := le_stringLength h; omega)
  refine .ite (fun hc => .ok nofun (length_takeWhile_pos hc)) fun _ => ?_
  exact .ite (fun hc => .scanWord hc) fun _ => .error _

/-- The tokens that are not trivia. -/
def Token.solid (ts : List Token) : List Token := ts.filter fun t => !t.kind.isTrivia

namespace Reader

open Token (solid)

variable {r r' : Reader} {t : Token} {ts : List Token}

/-! ## One step -/

/-- Skipping trivia does not matter for a single step. -/
theorem step_skipTrivia (r : Reader) (b : Bool) :
    step { r with skipTrivia := b } = (r.step.1, { r.step.2 with skipTrivia := b }) := by
  simp only [step, commit]
  split <;> rfl

theorem step_of_nil (h : r.ahead = []) :
    ∃ t r', r.step = (.ok t, r') ∧ t.kind = .eof ∧ t.lexeme = [] := by
  simp only [step, commit, h, scan]
  exact ⟨_, _, rfl, rfl, rfl⟩

theorem step_ok (h : r.step = (.ok t, r')) (ht : t.kind ≠ .eof) :
    r'.ahead.length < r.ahead.length ∧ r'.skipTrivia = r.skipTrivia := by
  simp only [step, commit] at h
  split at h
  · cases h
  · next kind n hscan =>
    cases h
    refine ⟨?_, rfl⟩
    cases hahead : r.ahead with
    | nil =>
      rw [hahead] at hscan
      cases hscan
      exact absurd rfl ht
    | cons c cs =>
      rw [hahead] at hscan
      have hn := (proper_scan_cons _ c cs kind n hscan).2
      simp only [List.length_drop, List.length_cons]
      omega

/-! ## Whole texts -/

/-- The reader meets the tokens `ts`, of which the last is the end of the text. -/
inductive Lexes : Reader → List Token → Prop where
  | stop {r r' : Reader} {t : Token} : r.step = (.ok t, r') → t.kind = .eof → Lexes r [t]
  | next {r r' : Reader} {t : Token} {ts : List Token} : r.step = (.ok t, r') → t.kind ≠ .eof →
      Lexes r' ts → Lexes r (t :: ts)

theorem Lexes.withSkipTrivia (h : Lexes r ts) (b : Bool) : Lexes { r with skipTrivia := b } ts := by
  induction h with
  | stop hstep ht => exact .stop (by rw [step_skipTrivia, hstep]) ht
  | next hstep ht _ ih => exact .next (by rw [step_skipTrivia, hstep]) ht ih

theorem next_eq_step (h : r.skipTrivia = false) : r.next = r.step := by
  unfold next nextWithin
  split <;> simp_all

theorem lexes_of_readWithin {fuel : Nat} {tokens : List Token} {last : Token}
    (hskip : r.skipTrivia = false) (hfuel : r.ahead.length ≤ fuel)
    (h : r.readWithin fuel = (tokens, .ok last)) : Lexes r (tokens ++ [last]) := by
  induction fuel generalizing r tokens with
  | zero =>
    obtain ⟨t, r', hstep, ht, -⟩ := step_of_nil (List.length_eq_zero_iff.mp (Nat.le_zero.mp hfuel))
    rw [readWithin, next_eq_step hskip, hstep] at h
    cases h
    exact .stop hstep ht
  | succ fuel ih =>
    rw [readWithin, next_eq_step hskip] at h
    split at h
    · cases h
    · next t r' hstep =>
      split at h
      · next ht =>
        cases h
        exact .stop hstep ht
      · next ht =>
        obtain ⟨hlength, hskip'⟩ := step_ok hstep ht
        cases hrest : r'.readWithin fuel with
        | mk tokens' stop =>
          rw [hrest] at h
          cases h
          exact .next hstep ht (ih (hskip'.trans hskip) (by omega) hrest)

/-- A text that can be read to its end has the tokens that `tokenize` gives. -/
theorem lexes_of_tokenize {text : List Char} (h : tokenize text = .ok ts) :
    Lexes (ofText text false) ts := by
  unfold tokenize at h
  split at h
  · next tokens last hread =>
    cases h
    exact lexes_of_readWithin rfl (by simp [ofText]) hread
  · cases h

/-! ## Skipping trivia -/

/-- The first token that is not trivia is found, and the reader goes on behind it. -/
theorem Lexes.nextWithin {fuel : Nat} (h : Lexes r ts) (hskip : r.skipTrivia = true)
    (hfuel : r.ahead.length ≤ fuel) :
    ∃ t r', r.nextWithin fuel = (.ok t, r') ∧
      ((t.kind = .eof ∧ solid ts = [t]) ∨
        (t.kind ≠ .eof ∧ r'.skipTrivia = true ∧ r'.ahead.length < r.ahead.length ∧
          ∃ us, Lexes r' us ∧ solid ts = t :: solid us)) := by
  induction h generalizing fuel with
  | @stop r r' t hstep ht =>
    refine ⟨t, r', ?_, .inl ⟨ht, by simp [solid, ht, Kind.isTrivia]⟩⟩
    cases fuel with
    | zero => exact hstep
    | succ fuel => simp [Reader.nextWithin, hstep, ht, Kind.isTrivia]
  | @next r r' t ts hstep ht hrest ih =>
    obtain ⟨hlength, hskip'⟩ := step_ok hstep ht
    rw [hskip] at hskip'
    obtain ⟨fuel, rfl⟩ := Nat.exists_eq_add_one.mpr (show 0 < fuel by omega)
    rw [Reader.nextWithin, hstep]
    by_cases htrivia : t.kind.isTrivia = true
    · obtain ⟨u, r'', hnext, hu⟩ := ih hskip' (show r'.ahead.length ≤ fuel by omega)
      refine ⟨u, r'', by simp [hskip, htrivia, hnext], ?_⟩
      have hsolid : solid (t :: ts) = solid ts := by simp [solid, htrivia]
      rw [hsolid]
      rcases hu with hend | ⟨hu, hskip'', hlength', hmore⟩
      · exact .inl hend
      · exact .inr ⟨hu, hskip'', by omega, hmore⟩
    · exact ⟨t, r', by simp [htrivia], .inr ⟨ht, hskip', hlength, ts, hrest,
        by simp [solid, htrivia]⟩⟩

theorem Lexes.readWithin {fuel : Nat} (h : Lexes r ts) (hskip : r.skipTrivia = true)
    (hfuel : r.ahead.length ≤ fuel) :
    ∃ us e, solid ts = us ++ [e] ∧ e.kind = .eof ∧ (∀ t ∈ us, t.kind ≠ .eof) ∧
      r.readWithin fuel = (us, .ok e) := by
  induction fuel generalizing r ts with
  | zero =>
    obtain ⟨t, r', hnext, hrest⟩ := h.nextWithin hskip (Nat.le_add_right _ 1)
    rcases hrest with ⟨ht, hsolid⟩ | ⟨-, -, hlength, -⟩
    · exact ⟨[], t, hsolid, ht, nofun, by rw [Reader.readWithin, Reader.next, hnext]⟩
    · omega
  | succ fuel ih =>
    obtain ⟨t, r', hnext, hrest⟩ := h.nextWithin hskip (Nat.le_add_right _ 1)
    rw [Reader.readWithin, Reader.next, hnext]
    rcases hrest with ⟨ht, hsolid⟩ | ⟨ht, hskip', hlength, us, hus, hsolid⟩
    · exact ⟨[], t, hsolid, ht, nofun, by simp [ht]⟩
    · obtain ⟨vs, e, hvs, he, hne, hread⟩ := ih hus hskip' (by omega)
      refine ⟨t :: vs, e, by rw [hsolid, hvs]; rfl, he, ?_, by simp [ht, hread]⟩
      intro u hu
      rcases List.mem_cons.mp hu with rfl | hu
      · exact ht
      · exact hne u hu

end Reader

/-- A parser is fed the tokens of a text without its trivia. -/
theorem Feed.ofText_of_lexes {text : List Char} {ts : List Token}
    (h : (Reader.ofText text false).Lexes ts) :
    ∃ us e, Token.solid ts = us ++ [e] ∧ e.kind = .eof ∧ (∀ t ∈ us, t.kind ≠ .eof) ∧
      Feed.ofText text = ⟨us, .ok e, .first⟩ := by
  obtain ⟨us, e, hsolid, he, hne, hread⟩ :=
    (h.withSkipTrivia true).readWithin rfl (show _ ≤ text.length + 1 by simp [Reader.ofText])
  refine ⟨us, e, hsolid, he, hne, ?_⟩
  have hall : (Reader.ofText text true).readAll = (us, .ok e) := by
    simpa [Reader.readAll, Reader.ofText] using hread
  simp [Feed.ofText, hall]

end TierScript
