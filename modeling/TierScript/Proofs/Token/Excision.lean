import Mathlib.Data.List.Basic
import TierScript.Proofs.Token.Joining
import TierScript.Proofs.Token.Lookahead
import TierScript.Proofs.Token.Partition
import TierScript.Proofs.Token.Spacing

/-!
# Taking a word out of a text

When the `fn` after an `end` is taken out of a text, the other tokens are the same ones, apart from
trivia and from where they stand.

* `worded_scan`: a `fn` or an `end` is always scanned as a whole word.
* `extends_scan`: trivia before a word are scanned before any other text too, and may go on there.
* `Reader.Alike`: readers that have the same text ahead. Where they stand matters only in front of a
  dot, which starts a comment in the first column.
* `Reader.Lexes.alike`: they meet tokens with the same kinds and characters.
* `Reader.Passes.sees`: tokens in front of a change stay the same if they cannot see it.
* `Reader.Lexes.without_fn`, `Reader.Lexes.without_gap`: the text without the `fn`, and the text
  without the trivia before it too.
-/

namespace TierScript

namespace Scan

/-! ## The words of definitions -/

theorem isLineEnd_of_isWordPart {c : Char} (h : isWordPart c = true) :
    Source.isLineEnd c = false := by
  by_contra hend
  simp only [Source.isLineEnd, Bool.not_eq_false, Bool.or_eq_true, beq_iff_eq] at hend
  rcases hend with rfl | rfl <;> cases h

/-- The outcome is neither `fn` nor `end`, or it is the whole of that word. -/
def Worded (cs : List Char) (r : Except Misread (Kind × Nat)) : Prop :=
  ∀ k n, r = .ok (k, n) → k = .fnWord ∨ k = .endWord →
    cs.take n = cs.takeWhile isWordPart ∧ keyword? (cs.take n) = some k

variable {cs : List Char}

theorem Worded.ok {k : Kind} {n : Nat} (hfn : k ≠ .fnWord) (hend : k ≠ .endWord) :
    Worded cs (.ok (k, n)) := by
  rintro _ _ ⟨⟩ hk
  exact absurd hk (not_or.mpr ⟨hfn, hend⟩)

theorem Worded.error (m : Misread) : Worded cs (.error m) := nofun

theorem Worded.ite {p : Prop} [Decidable p] {a b : Except Misread (Kind × Nat)}
    (ha : Worded cs a) (hb : Worded cs b) : Worded cs (if p then a else b) := by
  split
  · exact ha
  · exact hb

theorem Worded.oneOrTwo {rest : List Char} {second : Char} {single double : Kind}
    (h₁ : single ≠ .fnWord ∧ single ≠ .endWord) (h₂ : double ≠ .fnWord ∧ double ≠ .endWord) :
    Worded cs (.ok (Scan.oneOrTwo rest second single double)) := by
  unfold Scan.oneOrTwo
  split
  · exact .ok h₂.1 h₂.2
  · exact .ok h₁.1 h₁.2

theorem Worded.scanWord (cs : List Char) : Worded cs (.ok (Scan.scanWord cs)) := by
  rintro k n heq hk
  have hscan : Scan.scanWord cs = (k, n) := Except.ok.inj heq
  generalize hword : cs.takeWhile isWordPart = word
  have hkind : (wordKind word (cs.drop word.length)).1 = k := hword ▸ congrArg Prod.fst hscan
  have hlength : word.length + (wordKind word (cs.drop word.length)).2 = n :=
    hword ▸ congrArg Prod.snd hscan
  rw [← hkind] at hk
  obtain ⟨hreserved, hextra⟩ := keyword?_of_wordKind hk
  have htake : cs.take n = word := by
    rw [← hlength, hextra, Nat.add_zero, ← hword]
    exact (List.prefix_iff_eq_take.mp (List.takeWhile_prefix isWordPart)).symm
  rw [htake, ← hkind]
  exact ⟨rfl, hreserved⟩

end Scan

open Scan in
theorem worded_scan (firstColumn : Bool) (cs : List Char) : Worded cs (scan firstColumn cs) := by
  cases cs with
  | nil => exact .ok nofun nofun
  | cons c cs =>
    unfold scan
    iterate 2 refine .ite (.ok nofun nofun) ?_
    refine .ite (.oneOrTwo ⟨nofun, nofun⟩ ⟨nofun, nofun⟩) ?_
    refine .ite (.ite (.ok nofun nofun) (.ok nofun nofun)) ?_
    iterate 6 refine .ite (.ok nofun nofun) ?_
    iterate 2 refine .ite (.ite (.ok nofun nofun) (.error _)) ?_
    iterate 6 refine .ite (.oneOrTwo ⟨nofun, nofun⟩ ⟨nofun, nofun⟩) ?_
    iterate 2 refine .ite (.ok nofun nofun) ?_
    refine .ite (.ite (.ok nofun nofun) (.ite ?_ (.ok nofun nofun))) ?_
    · split
      · exact .ok nofun nofun
      · exact .error _
    refine .ite ?_ ?_
    · cases stringLength 0 0 cs with
      | error m => exact .error m
      | ok n => exact .ok nofun nofun
    exact .ite (.ok nofun nofun) (.ite (.scanWord _) (.error _))

namespace Scan

/-! ## Trivia before another text -/

/-- If the first outcome is the trivia `w`, the second is too, or it takes more of the text `y` that
    comes after `w`, namely the trivia that `y` starts with. -/
def Extends (w y : List Char) (r r' : Except Misread (Kind × Nat)) : Prop :=
  ∀ k, r = .ok (k, w.length) → k.isTrivia = true →
    ∃ n, r' = .ok (k, w.length + n) ∧ (0 < n → ∀ firstColumn, scan firstColumn y = .ok (k, n))

variable {w x y : List Char}

theorem Extends.refl (r : Except Misread (Kind × Nat)) : Extends w y r r :=
  fun _ h _ => ⟨0, h, nofun⟩

theorem Extends.solid {k : Kind} {n : Nat} (hk : k.isTrivia = false)
    (r' : Except Misread (Kind × Nat)) : Extends w y (.ok (k, n)) r' := by
  rintro _ ⟨⟩ htrivia
  rw [hk] at htrivia
  cases htrivia

theorem Extends.error (m : Misread) (r' : Except Misread (Kind × Nat)) :
    Extends w y (.error m) r' := nofun

theorem Extends.ite {p q : Prop} [Decidable p] [Decidable q]
    {a b a' b' : Except Misread (Kind × Nat)} (hpq : q ↔ p) (ha : p → Extends w y a a')
    (hb : ¬ p → Extends w y b b') : Extends w y (if p then a else b) (if q then a' else b') := by
  by_cases hp : p
  · rw [if_pos hp, if_pos (hpq.mpr hp)]
    exact ha hp
  · rw [if_neg hp, if_neg (mt hpq.mp hp)]
    exact hb hp

theorem Extends.if_solid {p : Prop} [Decidable p] {a b : Except Misread (Kind × Nat)}
    (ha : ∀ r', Extends w y a r') (hb : ∀ r', Extends w y b r')
    (r' : Except Misread (Kind × Nat)) : Extends w y (if p then a else b) r' := by
  split
  · exact ha r'
  · exact hb r'

theorem Extends.oneOrTwo {single double : Kind} (h₁ : single.isTrivia = false)
    (h₂ : double.isTrivia = false) (rest : List Char) (second : Char)
    (r' : Except Misread (Kind × Nat)) :
    Extends w y (.ok (Scan.oneOrTwo rest second single double)) r' := by
  unfold Scan.oneOrTwo
  split
  · exact .solid h₂ r'
  · exact .solid h₁ r'

/-- Blanks may go on before another text. -/
theorem Extends.gap (c : Char) (cs y w : List Char) :
    Extends w y (.ok (.whitespace, ((w ++ c :: cs).takeWhile isGap).length))
      (.ok (.whitespace, ((w ++ y).takeWhile isGap).length)) := by
  intro k h _
  obtain ⟨rfl, hlength⟩ := Prod.mk.inj (Except.ok.inj h)
  have hall : ∀ d ∈ w, isGap d = true := fun d hd =>
    List.mem_takeWhile_imp (takeWhile_eq_of_length hlength ▸ hd)
  refine ⟨(y.takeWhile isGap).length, ?_, fun hpos firstColumn => ?_⟩
  · rw [List.takeWhile_append_of_pos hall, List.length_append]
  · cases y with
    | nil => cases hpos
    | cons d ds =>
      have hd : isGap d = true := by
        by_contra hd
        rw [List.takeWhile_cons_of_neg hd] at hpos
        cases hpos
      rw [scan, if_pos hd]

variable {c : Char} (hc : isWordPart c = true) (cs y : List Char)
include hc

/-- A carriage return before a word becomes a line end with the line feed of another text. -/
theorem Extends.carriageReturn (w : List Char) :
    Extends ('\r' :: w) y (.ok (Scan.oneOrTwo (w ++ c :: cs) '\n' .newline .newline))
      (.ok (Scan.oneOrTwo (w ++ y) '\n' .newline .newline)) := by
  cases w with
  | cons d ds => exact .refl _
  | nil =>
    have hother : c ≠ '\n' := by
      rintro rfl
      cases hc
    intro k h _
    rw [Scan.oneOrTwo, List.nil_append, List.head?_cons, if_neg (by simpa using hother)] at h
    obtain ⟨rfl, -⟩ := Prod.mk.inj (Except.ok.inj h)
    by_cases hfeed : y.head? = some '\n'
    · refine ⟨1, by rw [Scan.oneOrTwo, List.nil_append, if_pos hfeed]; rfl, fun _ _ => ?_⟩
      obtain ⟨ds, rfl⟩ := List.head?_eq_some_iff.mp hfeed
      rfl
    · exact ⟨0, by rw [Scan.oneOrTwo, List.nil_append, if_neg hfeed]; rfl, by simp⟩

/-- A comment that goes on to the end of the line does not end before a word. -/
theorem Extends.line (w : List Char) (r' : Except Misread (Kind × Nat)) :
    Extends w y (.ok (.comment, lineLength (w ++ c :: cs))) r' := by
  intro k h _
  have hlength : lineLength (w ++ c :: cs) = w.length := congrArg Prod.snd (Except.ok.inj h)
  have hline : (w ++ c :: cs).takeWhile (fun d => !Source.isLineEnd d) = w :=
    takeWhile_eq_of_length hlength
  have hinline := isLineEnd_of_isWordPart hc
  have hall : ∀ d ∈ w, (!Source.isLineEnd d) = true := by
    intro d hd
    rw [← hline] at hd
    exact List.mem_takeWhile_imp (p := fun d => !Source.isLineEnd d) hd
  rw [List.takeWhile_append_of_pos hall] at hline
  have hmore := congrArg List.length hline
  simp [hinline] at hmore

theorem Extends.comment (w : List Char) :
    Extends ('/' :: w) y
      (if (w ++ c :: cs).head? = some '/' then .ok (.comment, lineLength ('/' :: (w ++ c :: cs)))
       else if (w ++ c :: cs).head? = some '.' then
         match commentEnd? ((w ++ c :: cs).drop 1) with
         | some n => .ok (.comment, n + 2)
         | none => .error ⟨.openComment, 2⟩
       else .ok (.slash, 1))
      (if (w ++ y).head? = some '/' then .ok (.comment, lineLength ('/' :: (w ++ y)))
       else if (w ++ y).head? = some '.' then
         match commentEnd? ((w ++ y).drop 1) with
         | some n => .ok (.comment, n + 2)
         | none => .error ⟨.openComment, 2⟩
       else .ok (.slash, 1)) := by
  cases w with
  | nil =>
    have hslash : c ≠ '/' := by rintro rfl; cases hc
    have hdot : c ≠ '.' := by rintro rfl; cases hc
    rw [List.nil_append, List.head?_cons, if_neg (by simpa using hslash),
      if_neg (by simpa using hdot)]
    exact .solid rfl _
  | cons d ds =>
    refine .ite .rfl (fun _ => .line hc cs y ('/' :: d :: ds) _) fun _ => ?_
    refine .ite .rfl (fun _ => ?_) fun _ => .refl _
    intro k h _
    simp only [List.cons_append, List.drop_succ_cons, List.drop_zero] at h ⊢
    split at h
    · next n hend =>
      obtain ⟨rfl, hlength⟩ := Prod.mk.inj (Except.ok.inj h)
      obtain rfl : n = ds.length := by simpa using hlength
      exact ⟨0, by rw [commentEnd?_sees hend]; rfl, nofun⟩
    · cases h

end Scan

open Scan in
/-- Trivia before a word is trivia before any other text, but may go on there. -/
theorem extends_scan (firstColumn : Bool) {w : List Char} (hw : w ≠ []) {c : Char}
    (hc : isWordPart c = true) (cs y : List Char) :
    Extends w y (scan firstColumn (w ++ c :: cs)) (scan firstColumn (w ++ y)) := by
  obtain ⟨d, ds, rfl⟩ := List.exists_cons_of_ne_nil hw
  have hgap := Extends.gap c cs y (d :: ds)
  have hline := Extends.line hc cs y (d :: ds)
  rw [List.cons_append] at hgap hline ⊢
  rw [List.cons_append] at hgap ⊢
  unfold scan
  refine .ite .rfl (fun _ => hgap) fun _ => ?_
  refine .ite .rfl (fun _ => .refl _) fun _ => ?_
  refine .ite .rfl (fun hd => ?_) fun _ => ?_
  · subst hd
    exact .carriageReturn hc cs y ds
  refine .ite .rfl (fun _ => .ite .rfl (fun _ => hline _) fun _ => .refl _) fun _ => ?_
  iterate 6 refine .ite .rfl (fun _ => .refl _) fun _ => ?_
  iterate 2 refine .ite .rfl (fun _ => .if_solid (.solid rfl) (.error _) _) fun _ => ?_
  iterate 6 refine .ite .rfl (fun _ => .oneOrTwo rfl rfl _ _ _) fun _ => ?_
  iterate 2 refine .ite .rfl (fun _ => .refl _) fun _ => ?_
  refine .ite .rfl (fun hd => ?_) fun _ => ?_
  · subst hd
    exact .comment hc cs y ds
  refine .ite .rfl (fun _ => ?_) fun _ => ?_
  · cases stringLength 0 0 (ds ++ c :: cs) with
    | error m => exact .error m _
    | ok n => exact .solid rfl _
  refine .ite .rfl (fun _ => .solid rfl _) fun _ => ?_
  exact .ite .rfl (fun _ => .solid (isTrivia_wordKind _ _) _) fun _ => .error _ _

/-! ## The same text in another place -/

namespace Position

/-- Whether the text goes on in the first column depends on the last character. -/
theorem col_after_concat {p : Position} (h : 0 < p.col) (following : Option Char) (cs : List Char)
    (c : Char) : ((p.after following (cs ++ [c])).col == 1) = endsLine c following := by
  induction cs generalizing p with
  | nil =>
    cases hends : endsLine c following with
    | true => simp [after, next, hends]
    | false => simp [after, next, hends, Nat.ne_of_gt h]
  | cons d cs ih => exact ih (col_next_pos _ _)

end Position

theorem Kind.ne_eof_of_isTrivia {k : Kind} (h : k.isTrivia = true) : k ≠ .eof := by
  rintro rfl
  cases h

/-- The kind of a token and its characters. -/
def Token.face (t : Token) : Kind × List Char := (t.kind, t.lexeme)

theorem Token.solid_append (ts us : List Token) : solid (ts ++ us) = solid ts ++ solid us :=
  List.filter_append _ _

theorem Token.solid_cons {t : Token} (h : t.kind.isTrivia = false) (ts : List Token) :
    solid (t :: ts) = t :: solid ts := by
  simp [solid, h]

theorem Token.solid_cons_trivia {t : Token} (h : t.kind.isTrivia = true) (ts : List Token) :
    solid (t :: ts) = solid ts := by
  simp [solid, h]

theorem Token.solid_eq_nil {ts : List Token} (h : ∀ t ∈ ts, t.kind.isTrivia = true) :
    solid ts = [] :=
  List.filter_eq_nil_iff.mpr fun t ht => by simp [h t ht]

theorem Token.map_face_solid {ts us : List Token} (h : ts.map face = us.map face) :
    (solid ts).map face = (solid us).map face := by
  have hfilter (ts : List Token) :
      (solid ts).map face = (ts.map face).filter fun x => !x.1.isTrivia := by
    rw [solid, List.filter_map]
    rfl
  rw [hfilter, hfilter, h]

/-- The scan depends on the column only where a dot comes next. -/
theorem scan_column {cs : List Char} (h : cs.head? ≠ some '.') (firstColumn firstColumn' : Bool) :
    scan firstColumn cs = scan firstColumn' cs := by
  cases cs with
  | nil => rfl
  | cons c cs =>
    have hc : c ≠ '.' := by simpa using h
    simp only [scan, if_neg hc]

namespace Reader

open Token (face solid chars)
open Scan (Sees isWordPart)

variable {r r' r₁ : Reader} {t : Token} {ts us : List Token}

/-- A step gives what is scanned, and leaves the text behind it. -/
theorem step_scanned (h : r.step = (.ok t, r')) :
    scan (r.column == 1) r.ahead = .ok (t.kind, t.lexeme.length) ∧
      r' = { r.commit with held := t.lexeme, ahead := r'.ahead } := by
  have hahead := (step_start h).2.2.2
  unfold step at h
  dsimp only at h
  split at h
  · cases h
  · next kind n hscan =>
    cases h
    have hn := scan_le _ _ _ _ hscan
    refine ⟨?_, rfl⟩
    rw [List.length_take, Nat.min_eq_left hn]
    exact hscan

theorem step_of_scanned {k : Kind} {cs after : List Char} (hahead : r.ahead = cs ++ after)
    (h : scan (r.column == 1) (cs ++ after) = .ok (k, cs.length)) :
    r.step = (.ok ⟨k, cs, r.commit.offset, .ofText r.commit.position cs⟩,
      { r.commit with held := cs, ahead := after }) := by
  have hcommit : r.commit.ahead = cs ++ after := hahead
  unfold column at h
  simp only [step, hcommit, h, List.take_left, List.drop_left]

/-- The two readers have the same text ahead, and it does not matter where. -/
structure Alike (r r' : Reader) : Prop where
  ahead : r'.ahead = r.ahead
  column : 0 < r.column
  column' : 0 < r'.column
  dot : r.ahead.head? = some '.' → (r'.column == 1) = (r.column == 1)

namespace Alike

theorem scan_eq (h : Alike r r') :
    scan (r'.column == 1) r'.ahead = scan (r.column == 1) r.ahead := by
  rw [h.ahead]
  by_cases hdot : r.ahead.head? = some '.'
  · rw [h.dot hdot]
  · exact scan_column hdot _ _

/-- Behind tokens that end with the same character, readers with the same text ahead are alike. -/
theorem of_steps {u : Token} {r₁ r₁' : Reader} (hcol : 0 < r.column) (hcol' : 0 < r'.column)
    (h : r.step = (.ok t, r₁)) (h' : r'.step = (.ok u, r₁')) {front front' : List Char} {c : Char}
    (ht : t.lexeme = front ++ [c]) (hu : u.lexeme = front' ++ [c]) (hahead : r₁'.ahead = r₁.ahead) :
    Alike r₁ r₁' := by
  have hcolumn : r₁.column = (r.commit.position.after r₁.ahead.head? (front ++ [c])).col := by
    rw [(step_scanned h).2, ht]
    rfl
  have hcolumn' : r₁'.column = (r'.commit.position.after r₁.ahead.head? (front' ++ [c])).col := by
    rw [(step_scanned h').2, hu, hahead]
    rfl
  refine ⟨hahead, ?_, ?_, fun _ => ?_⟩
  · rw [hcolumn]
    exact Position.col_after_pos hcol _ _
  · rw [hcolumn']
    exact Position.col_after_pos hcol' _ _
  · rw [hcolumn, hcolumn']
    exact (Position.col_after_concat hcol' _ _ _).trans (Position.col_after_concat hcol _ _ _).symm

end Alike

theorem step_lexeme_ne_nil (h : r.step = (.ok t, r')) (ht : t.kind ≠ .eof) : t.lexeme ≠ [] := by
  intro hempty
  have hahead := (step_start h).2.2.2
  rw [hempty, List.nil_append] at hahead
  exact absurd (congrArg List.length hahead) (Nat.ne_of_lt (step_ok h ht).1)

/-- Readers that are alike meet the same tokens, apart from where these stand. -/
theorem Lexes.alike (h : Lexes r ts) (hr : Alike r r') :
    ∃ us, Lexes r' us ∧ us.map face = ts.map face := by
  induction h generalizing r' with
  | @stop r r₁ t hstep ht =>
    have hnil := ahead_of_step_eof hstep ht
    obtain ⟨v, _, hv, hkind, hlexeme⟩ := step_of_nil hnil
    obtain ⟨u, r'', hstep', hkind', hlexeme'⟩ := step_of_nil (hr.ahead.trans hnil)
    cases hstep.symm.trans hv
    refine ⟨[u], .stop hstep' hkind', ?_⟩
    rw [List.map_singleton, List.map_singleton, face, face, hkind', hlexeme', hkind, hlexeme]
  | @next r r₁ t ts hstep ht _ ih =>
    have hscan : scan (r'.column == 1) (t.lexeme ++ r₁.ahead) = .ok (t.kind, t.lexeme.length) := by
      have heq := hr.scan_eq
      rw [hr.ahead, (step_scanned hstep).1] at heq
      rw [(step_start hstep).2.2.2]
      exact heq
    have hahead' : r'.ahead = t.lexeme ++ r₁.ahead := hr.ahead.trans (step_start hstep).2.2.2.symm
    have hstep' := step_of_scanned hahead' hscan
    have hlast := (List.dropLast_concat_getLast (step_lexeme_ne_nil hstep ht)).symm
    have hrest := Alike.of_steps hr.column hr.column' hstep hstep' hlast hlast rfl
    obtain ⟨us, hus, hfaces⟩ := ih hrest
    exact ⟨_, .next hstep' ht hus, by rw [List.map_cons, hfaces]; rfl⟩

/-! ## A shorter text -/

theorem Lexes.split (h : Lexes r (ts ++ t :: us)) : ∃ r', Passes r ts r' ∧ Lexes r' (t :: us) := by
  induction ts generalizing r with
  | nil => exact ⟨r, .nil, h⟩
  | cons u ts ih =>
    generalize hall : u :: ts ++ t :: us = all at h
    cases h with
    | stop => simp at hall
    | next hstep hu hrest =>
      obtain ⟨rfl, rfl⟩ := List.cons.inj hall
      obtain ⟨r', hpass, hlexes⟩ := ih hrest
      exact ⟨r', .cons hstep hu hpass, hlexes⟩

theorem Passes.ahead_eq (h : Passes r ts r') : r.ahead = chars ts ++ r'.ahead := by
  induction h with
  | nil => rfl
  | cons hstep _ _ ih => rw [Token.chars_cons, List.append_assoc, ← ih, (step_start hstep).2.2.2]

theorem step_column (h : r.step = (.ok t, r')) :
    r'.column = (r.commit.position.after r'.ahead.head? t.lexeme).col := by
  rw [(step_scanned h).2]
  rfl

theorem step_column_pos (h : r.step = (.ok t, r')) (hcol : 0 < r.column) : 0 < r'.column := by
  rw [step_column h]
  exact Position.col_after_pos hcol _ _

theorem Passes.column_pos (h : Passes r ts r') (hcol : 0 < r.column) : 0 < r'.column := by
  induction h with
  | nil => exact hcol
  | cons hstep _ _ ih => exact ih (step_column_pos hstep hcol)

/-- Another text that goes on with the same character. -/
theorem commit_withAhead {cs : List Char} (h : cs.head? = r.ahead.head?) :
    commit { r with ahead := cs } = { r.commit with ahead := cs } := by
  simp only [commit, h]

/-- A token stays the same when the text behind it changes, if it is scanned before both. -/
theorem step_sees (h : r.step = (.ok t, r')) (ht : t.kind ≠ .eof) {after : List Char}
    (hsees : Sees t.kind r'.ahead after) :
    step { r with ahead := t.lexeme ++ after } = (.ok t, { r' with ahead := after }) := by
  obtain ⟨c, cs, hlexeme⟩ := List.exists_cons_of_ne_nil (step_lexeme_ne_nil h ht)
  have hahead : r.ahead = t.lexeme ++ r'.ahead := (step_start h).2.2.2.symm
  have hscan : scan (r.column == 1) (t.lexeme ++ r'.ahead) = .ok (t.kind, t.lexeme.length) :=
    hahead ▸ (step_scanned h).1
  have hcommit : commit { r with ahead := t.lexeme ++ after } =
      { r.commit with ahead := t.lexeme ++ after } :=
    commit_withAhead (by rw [hahead, hlexeme]; rfl)
  have hscan' : scan (column { r with ahead := t.lexeme ++ after } == 1) (t.lexeme ++ after) =
      .ok (t.kind, t.lexeme.length) := by
    rw [column, hcommit, hlexeme]
    rw [hlexeme] at hscan
    exact scan_sees _ c hsees hscan
  have hstep := step_of_scanned (r := { r with ahead := t.lexeme ++ after }) rfl hscan'
  obtain ⟨ht', hr'⟩ := Prod.mk.inj (h.symm.trans (step_of_scanned hahead hscan))
  rw [hstep, hcommit, hr', ← Except.ok.inj ht']

/-- Tokens stay the same when the text behind them changes. -/
theorem Passes.sees {after : List Char} (h : Passes r ts r')
    (hsees : ∀ front t back, ts = front ++ t :: back →
      Sees t.kind (chars back ++ r'.ahead) (chars back ++ after)) :
    Passes { r with ahead := chars ts ++ after } ts { r' with ahead := after } := by
  induction h with
  | nil => exact .nil
  | @cons r r₁ r' t ts hstep ht hpass ih =>
    have hfirst := hsees [] t ts rfl
    rw [← hpass.ahead_eq] at hfirst
    have hstep' := step_sees hstep ht hfirst
    rw [← List.append_assoc] at hstep'
    exact .cons hstep' ht (ih fun front u back hts => hsees (t :: front) u back (by rw [hts]; rfl))

/-- The reader behind the last trivia before a word, when the word is gone. -/
theorem exists_step_trivia {w : Token} {c : Char} {cs y : List Char} (hstep : r.step = (.ok w, r₁))
    (htrivia : w.kind.isTrivia = true) (hahead : r₁.ahead = c :: cs) (hc : isWordPart c = true) :
    ∃ n u r', step { r with ahead := w.lexeme ++ y } = (.ok u, r') ∧
      column { r with ahead := w.lexeme ++ y } = r.column ∧ u.kind = w.kind ∧
      u.lexeme = w.lexeme ++ y.take n ∧ r'.ahead = y.drop n ∧
      (0 < n → ∀ firstColumn, scan firstColumn y = .ok (w.kind, n)) := by
  have hw : w.lexeme ≠ [] := step_lexeme_ne_nil hstep (Kind.ne_eof_of_isTrivia htrivia)
  have hr : r.ahead = w.lexeme ++ c :: cs := hahead ▸ (step_start hstep).2.2.2.symm
  have hscan : scan (r.column == 1) (w.lexeme ++ c :: cs) = .ok (w.kind, w.lexeme.length) :=
    hr ▸ (step_scanned hstep).1
  obtain ⟨n, hscan', hmore⟩ := extends_scan _ hw hc cs y _ hscan htrivia
  have hn : n ≤ y.length := by
    have hle := scan_le _ _ _ _ hscan'
    rw [List.length_append] at hle
    omega
  have htext : w.lexeme ++ y = w.lexeme ++ y.take n ++ y.drop n := by
    rw [List.append_assoc, List.take_append_drop]
  have hcommit : commit { r with ahead := w.lexeme ++ y } =
      { r.commit with ahead := w.lexeme ++ y } :=
    commit_withAhead (by
      rw [hr, List.head?_append_of_ne_nil _ hw, List.head?_append_of_ne_nil _ hw])
  have hlength : (w.lexeme ++ y.take n).length = w.lexeme.length + n := by simp [hn]
  have hstep' := step_of_scanned (r := { r with ahead := w.lexeme ++ y }) (k := w.kind) htext (by
    rw [← htext, hlength, column, hcommit]
    exact hscan')
  exact ⟨n, _, _, hstep', by rw [column, hcommit]; rfl, rfl, rfl, rfl, hmore⟩

theorem Lexes.ahead_eq (h : Lexes r ts) : r.ahead = chars ts := by
  induction h with
  | @stop r r' t hstep ht =>
    have hnil := ahead_of_step_eof hstep ht
    have hahead := (step_start hstep).2.2.2
    rw [hnil, List.append_eq_nil_iff] at hahead
    rw [hnil, Token.chars_cons, hahead.1]
    rfl
  | next hstep _ _ ih => rw [Token.chars_cons, ← ih, (step_start hstep).2.2.2]

theorem Lexes.step_cons (h : Lexes r (t :: ts)) (ht : t.kind ≠ .eof) :
    ∃ r', r.step = (.ok t, r') ∧ Lexes r' ts := by
  cases h with
  | stop _ hk => exact absurd hk ht
  | next hstep _ hrest => exact ⟨_, hstep, hrest⟩

/-- The first token is what is scanned. -/
theorem Lexes.head_kind (h : Lexes r ts) {k : Kind} {n : Nat}
    (hscan : scan (r.column == 1) r.ahead = .ok (k, n)) : ∃ t ∈ ts.head?, t.kind = k := by
  cases h with
  | stop hstep | next hstep =>
    rw [(step_scanned hstep).1] at hscan
    exact ⟨_, rfl, congrArg Prod.fst (Except.ok.inj hscan)⟩

/-- A word of definitions is one as a whole. -/
theorem step_word (h : r.step = (.ok t, r')) (ht : t.kind = .fnWord ∨ t.kind = .endWord) :
    (∀ c ∈ t.lexeme, isWordPart c = true) ∧ (∀ c ∈ r'.ahead.head?, isWordPart c = false) ∧
      keyword? t.lexeme = some t.kind := by
  obtain ⟨hword, hkeyword⟩ := worded_scan _ _ _ _ (step_scanned h).1 ht
  rw [← (step_start h).2.2.2, List.take_left] at hword hkeyword
  have hall : ∀ c ∈ t.lexeme, isWordPart c = true := fun c hc =>
    List.mem_takeWhile_imp (hword ▸ hc)
  refine ⟨hall, fun c hc => ?_, hkeyword⟩
  obtain ⟨cs, hcs⟩ := List.head?_eq_some_iff.mp hc
  rw [hcs, List.takeWhile_append_of_pos hall] at hword
  by_contra hpart
  rw [List.takeWhile_cons_of_pos (by simpa using hpart)] at hword
  exact absurd (congrArg List.length hword) (by simp)

theorem lexeme_ne_nil_of_word (h : r.step = (.ok t, r'))
    (ht : t.kind = .fnWord ∨ t.kind = .endWord) : t.lexeme ≠ [] :=
  step_lexeme_ne_nil h (by rcases ht with ht | ht <;> rw [ht] <;> nofun)

theorem exists_ahead_of_word (h : r.step = (.ok t, r'))
    (ht : t.kind = .fnWord ∨ t.kind = .endWord) :
    ∃ c cs, r.ahead = c :: cs ∧ isWordPart c = true := by
  obtain ⟨c, cs, hlexeme⟩ := List.exists_cons_of_ne_nil (lexeme_ne_nil_of_word h ht)
  have hahead : r.ahead = c :: (cs ++ r'.ahead) := by
    rw [← (step_start h).2.2.2, hlexeme, List.cons_append]
  exact ⟨c, _, hahead, (step_word h ht).1 c (by simp [hlexeme])⟩

/-- After a word the text does not go on in the first column. -/
theorem column_behind_word (hcol : 0 < r.column) (h : r.step = (.ok t, r'))
    (ht : t.kind = .fnWord ∨ t.kind = .endWord) : (r'.column == 1) = false := by
  have hne : t.lexeme ≠ [] := lexeme_ne_nil_of_word h ht
  have hinline := Scan.isLineEnd_of_isWordPart ((step_word h ht).1 _ (List.getLast_mem hne))
  have hcolumn := @Position.one_lt_col_after r.commit.position hcol r'.ahead.head? _ hinline
    t.lexeme.dropLast
  rw [List.dropLast_concat_getLast, ← step_column h] at hcolumn
  simpa using Nat.ne_of_gt hcolumn

/-- Behind two words readers with the same text ahead are alike. -/
theorem Alike.behind_words {u : Token} {r₁ r₁' : Reader} (hcol : 0 < r.column)
    (hcol' : 0 < r'.column) (h : r.step = (.ok t, r₁)) (ht : t.kind = .fnWord ∨ t.kind = .endWord)
    (h' : r'.step = (.ok u, r₁')) (hu : u.kind = .fnWord ∨ u.kind = .endWord)
    (hahead : r₁'.ahead = r₁.ahead) : Alike r₁ r₁' :=
  ⟨hahead, step_column_pos h hcol, step_column_pos h' hcol', fun _ =>
    (column_behind_word hcol' h' hu).trans (column_behind_word hcol h ht).symm⟩

/-- Trivia before a `fn` that is gone are trivia still, and the same tokens come after them. -/
theorem Lexes.behind_trivia {w g : Token} {r₂ r₃ : Reader} (hcol : 0 < r.column)
    (hw : r.step = (.ok w, r₂)) (htrivia : w.kind.isTrivia = true) (hg : r₂.step = (.ok g, r₃))
    (hfn : g.kind = .fnWord) (h : Lexes r₃ ts) (hdot : ∀ t ∈ ts.head?, t.kind ≠ .dot) :
    ∃ u us, Lexes { r with ahead := w.lexeme ++ r₃.ahead } (u :: us) ∧ u.kind.isTrivia = true ∧
      (solid us).map face = (solid ts).map face := by
  have hne : w.kind ≠ .eof := Kind.ne_eof_of_isTrivia htrivia
  obtain ⟨c, cs, hahead, hc⟩ := exists_ahead_of_word hg (.inl hfn)
  have hcol₃ : 0 < r₃.column := step_column_pos hg (step_column_pos hw hcol)
  obtain ⟨n, u, r', hstep, hcolumn, hkind, hu, hbehind, hmore⟩ :=
    exists_step_trivia (y := r₃.ahead) hw htrivia hahead hc
  have hcol' : 0 < r'.column := step_column_pos hstep (hcolumn ▸ hcol)
  rcases Nat.eq_zero_or_pos n with rfl | hn
  · have halike : Alike r₃ r' := by
      refine ⟨hbehind, hcol₃, hcol', fun hhead => ?_⟩
      -- a dot would be the next token
      obtain ⟨ds, hds⟩ := List.head?_eq_some_iff.mp hhead
      have hdotted : scan (r₃.column == 1) r₃.ahead = .ok (.dot, 1) := by
        rw [column_behind_word (step_column_pos hw hcol) hg (.inl hfn), hds]
        rfl
      obtain ⟨t, ht, hk⟩ := h.head_kind hdotted
      exact absurd hk (hdot t ht)
    obtain ⟨us, hus, hfaces⟩ := h.alike halike
    exact ⟨u, us, .next hstep (hkind ▸ hne) hus, hkind ▸ htrivia, Token.map_face_solid hfaces⟩
  · have hscan := hmore hn (r₃.column == 1)
    cases h with
    | stop hstep₃ ht =>
      rw [(step_scanned hstep₃).1] at hscan
      exact absurd ((congrArg Prod.fst (Except.ok.inj hscan)).symm.trans ht) hne
    | @next _ r₄ t ts hstep₃ ht hrest =>
      rw [(step_scanned hstep₃).1] at hscan
      obtain ⟨hk, rfl⟩ := Prod.mk.inj (Except.ok.inj hscan)
      rw [← (step_start hstep₃).2.2.2, List.take_left] at hu
      rw [← (step_start hstep₃).2.2.2, List.drop_left] at hbehind
      have hlast := (List.dropLast_concat_getLast (step_lexeme_ne_nil hstep₃ ht)).symm
      rw [hlast, ← List.append_assoc] at hu
      have halike := Alike.of_steps hcol₃ (hcolumn ▸ hcol) hstep₃ hstep hlast hu hbehind
      obtain ⟨us, hus, hfaces⟩ := hrest.alike halike
      refine ⟨u, us, .next hstep (hkind ▸ hne) hus, hkind ▸ htrivia, ?_⟩
      rw [Token.map_face_solid hfaces, Token.solid_cons_trivia (hk ▸ htrivia)]

theorem lexeme_of_endWord {e : Token} (h : r.step = (.ok e, r')) (he : e.kind = .endWord) :
    e.lexeme = ['e', 'n', 'd'] := by
  have hmem := mem_keywords (step_word h (.inr he)).2.2
  rw [he] at hmem
  have hend : String.ofList e.lexeme = "end" := by simpa [keywords] using hmem
  simpa using congrArg String.toList hend

/-- An `end` and a `fn` are two words, so there is something in between. -/
theorem Lexes.gap_ne_nil {e g : Token} {gap : List Token} (h : Lexes r (e :: (gap ++ g :: us)))
    (he : e.kind = .endWord) (hg : g.kind = .fnWord) : gap ≠ [] := by
  rintro rfl
  obtain ⟨r₁, hend, hrest⟩ := h.step_cons (by rw [he]; nofun)
  obtain ⟨r₂, hfn, -⟩ := hrest.step_cons (by rw [hg]; nofun)
  obtain ⟨c, cs, hahead, hpart⟩ := exists_ahead_of_word hfn (.inl hg)
  have hstop := (step_word hend (.inr he)).2.1 c (by simp [hahead])
  rw [hpart] at hstop
  cases hstop

/-- A token before an `end` cannot tell what comes after the `end`. -/
theorem sees_before_end {k : Kind} (before between after after' : List Char) :
    Sees k (before ++ ['e', 'n', 'd'] ++ between ++ after)
      (before ++ ['e', 'n', 'd'] ++ between ++ after') := by
  refine .of_append (by simp) (.inr (.inr ⟨'d', ?_, rfl⟩)) _ _
  cases before <;> simp

/-- The tokens up to the last trivia before a `fn` cannot tell whether it is there. -/
theorem sees_before_fn {pre gap front back : List Token} {e t : Token} {w : List Char}
    (he : e.kind = .endWord) (hlexeme : e.lexeme = ['e', 'n', 'd'])
    (hgap : ∀ t ∈ gap, t.kind.isTrivia = true) (hw : w ≠ [])
    (hsplit : pre ++ e :: gap = front ++ t :: back) (after after' : List Char) :
    Sees t.kind (chars back ++ (w ++ after)) (chars back ++ (w ++ after')) := by
  have hlate (h : t ∈ e :: gap) :
      Sees t.kind (chars back ++ (w ++ after)) (chars back ++ (w ++ after')) := by
    rw [← List.append_assoc, ← List.append_assoc]
    refine .of_append (by simp [hw]) ?_ _ _
    rcases List.mem_cons.mp h with rfl | h
    · exact .inr (.inl he)
    · exact .inl (hgap t h)
  rcases List.append_eq_append_iff.mp hsplit with ⟨as, rfl, has⟩ | ⟨bs, rfl, hbs⟩
  · exact hlate (by simp [has])
  · cases bs with
    | nil =>
      obtain ⟨rfl, -⟩ := List.cons.inj hbs
      exact hlate List.mem_cons_self
    | cons u bs =>
      rw [List.cons_append] at hbs
      obtain ⟨rfl, rfl⟩ := List.cons.inj hbs
      have hchars (rest : List Char) : chars (bs ++ e :: gap) ++ (w ++ rest) =
          chars bs ++ ['e', 'n', 'd'] ++ (chars gap ++ w) ++ rest := by
        simp [Token.chars_append, hlexeme]
      rw [hchars, hchars]
      exact sees_before_end _ _ _ _

/-- When a `fn` after an `end` is gone from a text, the other tokens are the same, apart from
    trivia. -/
theorem Lexes.without_fn {text : List Char} {pre gap after : List Token} {e g : Token}
    (h : Lexes (ofText text false) (pre ++ e :: (gap ++ g :: after))) (he : e.kind = .endWord)
    (hg : g.kind = .fnWord) (hgap : ∀ t ∈ gap, t.kind.isTrivia = true)
    (hdot : ∀ t ∈ after.head?, t.kind ≠ .dot) :
    ∃ us, Lexes (ofText (chars (pre ++ e :: (gap ++ after))) false) us ∧
      (solid us).map face = (solid (pre ++ e :: after)).map face := by
  obtain ⟨r₀, hpre, hend⟩ := h.split
  obtain ⟨rE, hstep, -⟩ := hend.step_cons (by rw [he]; nofun)
  have hlexeme := lexeme_of_endWord hstep he
  obtain ⟨gap, w, rfl⟩ : ∃ front w, gap = front ++ [w] :=
    ⟨_, _, (List.dropLast_concat_getLast (hend.gap_ne_nil he hg)).symm⟩
  have hw : w.kind.isTrivia = true := hgap w (by simp)
  have hnotEof : w.kind ≠ .eof := Kind.ne_eof_of_isTrivia hw
  have hshape : pre ++ e :: (gap ++ [w] ++ g :: after) = pre ++ e :: gap ++ w :: g :: after := by
    simp
  rw [hshape] at h
  obtain ⟨r₁, hfront, hrest⟩ := h.split
  obtain ⟨r₂, hstepw, hrest⟩ := hrest.step_cons hnotEof
  obtain ⟨r₃, hstepg, hafter⟩ := hrest.step_cons (by rw [hg]; nofun)
  have hcol : 0 < r₁.column := hfront.column_pos (show 0 < 1 from Nat.one_pos)
  obtain ⟨u, us, hus, hu, hfaces⟩ := hafter.behind_trivia hcol hstepw hw hstepg hg hdot
  have hsees (front : List Token) (t : Token) (back : List Token)
      (hsplit : pre ++ e :: gap = front ++ t :: back) :
      Sees t.kind (chars back ++ r₁.ahead) (chars back ++ (w.lexeme ++ r₃.ahead)) := by
    rw [← (step_start hstepw).2.2.2]
    exact sees_before_fn he hlexeme (fun t ht => hgap t (by simp [ht]))
      (step_lexeme_ne_nil hstepw hnotEof) hsplit _ _
  have hsame := hfront.sees hsees
  have htext : { ofText text false with
      ahead := chars (pre ++ e :: gap) ++ (w.lexeme ++ r₃.ahead) } =
      ofText (chars (pre ++ e :: (gap ++ [w] ++ after))) false := by
    simp [ofText, chars, hafter.ahead_eq]
  rw [htext] at hsame
  refine ⟨_, hsame.lexes hus, ?_⟩
  have hkept : solid (pre ++ e :: gap) = solid (pre ++ [e]) := by
    have hnil : solid gap = [] := Token.solid_eq_nil fun t ht => hgap t (by simp [ht])
    rw [List.append_cons, Token.solid_append, hnil, List.append_nil]
  rw [Token.solid_append (pre ++ e :: gap) (u :: us), hkept, List.append_cons pre e after,
    Token.solid_append (pre ++ [e]) after, Token.solid_cons_trivia hu, List.map_append,
    List.map_append, hfaces]

/-- The same holds when the trivia in between are gone too. -/
theorem Lexes.without_gap {text : List Char} {pre gap after : List Token} {e g : Token}
    (h : Lexes (ofText text false) (pre ++ e :: (gap ++ g :: after))) (he : e.kind = .endWord)
    (hg : g.kind = .fnWord) :
    ∃ us, Lexes (ofText (chars (pre ++ e :: after)) false) us ∧
      (solid us).map face = (solid (pre ++ e :: after)).map face := by
  obtain ⟨r₀, hpre, hend⟩ := h.split
  obtain ⟨r₁, hstep, hrest⟩ := hend.step_cons (by simp [he])
  obtain ⟨r₂, hgap, hrest⟩ := hrest.split
  obtain ⟨r₃, hstepg, hafter⟩ := hrest.step_cons (by simp [hg])
  have hcol : 0 < r₀.column := hpre.column_pos (show 0 < 1 from Nat.one_pos)
  have hlexeme := lexeme_of_endWord hstep he
  have hahead : r₀.ahead = e.lexeme ++ r₁.ahead := (step_start hstep).2.2.2.symm
  have hsees (front : List Token) (t : Token) (back : List Token)
      (_ : pre = front ++ t :: back) :
      Sees t.kind (chars back ++ r₀.ahead) (chars back ++ (e.lexeme ++ r₃.ahead)) := by
    simpa [hahead, hlexeme] using sees_before_end (chars back) [] r₁.ahead r₃.ahead
  have hsame := hpre.sees hsees
  have htext : { ofText text false with ahead := chars pre ++ (e.lexeme ++ r₃.ahead) } =
      ofText (chars (pre ++ e :: after)) false := by
    simp [ofText, chars, hafter.ahead_eq]
  rw [htext] at hsame
  -- the `end` is a word of its own before what came after the `fn`
  have hend : Scan.wordKind e.lexeme r₃.ahead = (.endWord, 0) := by
    simp [Scan.wordKind, (step_word hstep (.inr he)).2.2, he]
  have hscan (firstColumn : Bool) :
      scan firstColumn (e.lexeme ++ r₃.ahead) = .ok (.endWord, e.lexeme.length) := by
    rw [Scan.scan_word (by rw [hlexeme]; rfl) (step_word hstepg (.inl hg)).2.1, hend, Nat.add_zero]
  have hstep' := step_of_scanned (r := { r₀ with ahead := e.lexeme ++ r₃.ahead }) rfl (hscan _)
  have hcol' : 0 < column { r₀ with ahead := e.lexeme ++ r₃.ahead } := by
    rw [column, commit_withAhead (by rw [hahead, hlexeme]; rfl)]
    exact hcol
  have halike := Alike.behind_words (hgap.column_pos (step_column_pos hstep hcol)) hcol' hstepg
    (.inl hg) hstep' (.inr rfl) rfl
  obtain ⟨us, hus, hfaces⟩ := hafter.alike halike
  refine ⟨_, hsame.lexes (.next hstep' (by simp) hus), ?_⟩
  refine Token.map_face_solid ?_
  rw [List.map_append, List.map_append, List.map_cons, List.map_cons, hfaces]
  simp [face, he]

end Reader

end TierScript
