import TierScript.Proofs.Token.Endings

/-!
# How far a scan looks ahead

What is scanned as a token depends on the characters of the token and on little of what follows:
the next character, and for words the next one that is not a blank. So a token stays the same token
when the text changes further on.

* `Scan.Sees`: two texts that a scan of a token of a given kind cannot tell apart.
* `scan_sees`: such texts can be exchanged after the token.
-/

namespace TierScript

namespace Scan

/-- A token of the given kind is scanned before the second text if it is scanned before the first:
    both go on with the same character, and also after blanks, unless the kind does not depend on
    that. -/
structure Sees (k : Kind) (after after' : List Char) : Prop where
  head : after'.head? = after.head?
  gap : k.isTrivia = true ∨ k = .endWord ∨
    afterGap after' = afterGap after ∧ afterGap after'.tail = afterGap after.tail

theorem Sees.gap_eq {k : Kind} {after after' : List Char} (h : Sees k after after')
    (htrivia : k.isTrivia = false) (hend : k ≠ .endWord) :
    afterGap after' = afterGap after ∧ afterGap after'.tail = afterGap after.tail := by
  obtain ⟨-, hk | hk | hgap⟩ := h
  · simp [htrivia] at hk
  · exact absurd hk hend
  · exact hgap

/-- If the first outcome is the given token, the second is too. -/
def Keeps (e : Kind × Nat) (r r' : Except Misread (Kind × Nat)) : Prop := r = .ok e → r' = .ok e

theorem Keeps.refl (e : Kind × Nat) (r : Except Misread (Kind × Nat)) : Keeps e r r := id

theorem Keeps.ite {e : Kind × Nat} {p q : Prop} [Decidable p] [Decidable q]
    {a b a' b' : Except Misread (Kind × Nat)} (hpq : q ↔ p) (ha : p → Keeps e a a')
    (hb : ¬ p → Keeps e b b') : Keeps e (if p then a else b) (if q then a' else b') := by
  by_cases hp : p
  · rw [if_pos hp, if_pos (hpq.mpr hp)]
    exact ha hp
  · rw [if_neg hp, if_neg (mt hpq.mp hp)]
    exact hb hp

/-- A run of characters is told by its length. -/
theorem takeWhile_eq_of_length {p : Char → Bool} {cs after : List Char}
    (h : ((cs ++ after).takeWhile p).length = cs.length) : (cs ++ after).takeWhile p = cs := by
  have hprefix : (cs ++ after).takeWhile p <+: cs ++ after := List.takeWhile_prefix p
  have hcs := List.prefix_of_prefix_length_le hprefix (List.prefix_append cs after)
    (Nat.le_of_eq h)
  exact hcs.eq_of_length h

section Parts

variable {cs after after' : List Char} (hhead : after'.head? = after.head?)
include hhead

theorem head?_append_sees (cs : List Char) : (cs ++ after').head? = (cs ++ after).head? := by
  cases cs with
  | nil => exact hhead
  | cons => rfl

/-- A run of characters ends where it did. -/
theorem takeWhile_sees {p : Char → Bool} (h : (cs ++ after).takeWhile p = cs) :
    (cs ++ after').takeWhile p = cs := by
  induction cs with
  | nil =>
    cases after' with
    | nil => rfl
    | cons d ds =>
      cases after with
      | nil => cases hhead
      | cons => cases hhead; cases hp : p d <;> simp_all
  | cons c cs ih =>
    rw [List.cons_append, List.takeWhile_cons] at h ⊢
    split at h
    · next hc => rw [if_pos hc, ih (List.cons.inj h).2]
    · cases h

theorem length_takeWhile_sees {p : Char → Bool}
    (h : ((cs ++ after).takeWhile p).length = cs.length) :
    ((cs ++ after').takeWhile p).length = cs.length := by
  rw [takeWhile_sees hhead (takeWhile_eq_of_length h)]

end Parts

theorem two_le_commentEnd? {cs : List Char} {n : Nat} (h : commentEnd? cs = some n) : 2 ≤ n := by
  obtain ⟨inside, hinside⟩ := take_commentEnd? h
  have hlength := congrArg List.length hinside
  simp only [List.length_take, List.length_append, List.length_cons, List.length_nil] at hlength
  omega

/-- The end of a comment is found without looking at what follows it. -/
theorem commentEnd?_sees {cs after : List Char} (h : commentEnd? (cs ++ after) = some cs.length)
    (after' : List Char) : commentEnd? (cs ++ after') = some cs.length := by
  induction cs with
  | nil => exact absurd (two_le_commentEnd? h) (by simp)
  | cons c cs ih =>
    -- A comment does not end with its first character, so there is a second one.
    obtain ⟨d, ds, rfl⟩ : ∃ d ds, cs = d :: ds := by
      cases cs with
      | nil => exact absurd (two_le_commentEnd? h) (by simp)
      | cons d ds => exact ⟨d, ds, rfl⟩
    have hsecond (tail : List Char) : (d :: ds ++ tail).head? = some d := rfl
    rw [List.cons_append, commentEnd?, hsecond] at h ⊢
    by_cases hclose : c = '.' ∧ some d = some '/'
    · rwa [if_pos hclose] at h ⊢
    · rw [if_neg hclose] at h ⊢
      obtain ⟨k, hk, hlength⟩ := Option.map_eq_some_iff.mp h
      obtain rfl : k = (d :: ds).length := Nat.succ.inj hlength
      rw [ih hk]
      rfl

/-- The end of a literal is found without looking at what follows it. -/
theorem stringLength_sees {cs after : List Char}
    (h : stringLength 0 0 (cs ++ after) = .ok (cs.length + 1)) (after' : List Char) :
    stringLength 0 0 (cs ++ after') = .ok (cs.length + 1) := by
  obtain ⟨items, rest, hcs, hlength⟩ := Literal.stringLength_eq_ok_iff.mp h
  have hitems : cs = Literal.body items ++ ['\x22'] := by
    rw [← List.singleton_append, ← List.append_assoc] at hcs
    exact (List.append_inj hcs (by simp; omega)).1
  refine Literal.stringLength_eq_ok_iff.mpr ⟨items, after', ?_, hlength⟩
  rw [hitems, List.append_assoc, List.singleton_append]

/-! ## Words -/

theorem isTrivia_wordKind (word after : List Char) : (wordKind word after).1.isTrivia = false := by
  unfold wordKind
  have hkeyword {k : Kind} (h : keyword? word = some k) : k.isTrivia = false := by
    have hmem := mem_keywords h
    cases k <;> simp [keywords, Kind.isTrivia] at hmem ⊢
  grind [Kind.isTrivia]

theorem keyword?_of_wordKind {word after : List Char}
    (h : (wordKind word after).1 = .fnWord ∨ (wordKind word after).1 = .endWord) :
    keyword? word = some (wordKind word after).1 ∧ (wordKind word after).2 = 0 := by
  unfold wordKind at h ⊢
  grind

theorem afterGap_cons (c : Char) (cs : List Char) :
    afterGap (c :: cs) = if isGap c then afterGap cs else some c := by
  unfold afterGap
  rw [List.dropWhile_cons]
  split <;> rfl

/-- The first character after blanks is the same if there is one before the texts differ. -/
theorem afterGap_append {cs : List Char} (h : ∃ c ∈ cs, isGap c = false)
    (after after' : List Char) :
    afterGap (cs ++ after') = afterGap (cs ++ after) := by
  induction cs with
  | nil => simp at h
  | cons c cs ih =>
    rw [List.cons_append, List.cons_append, afterGap_cons, afterGap_cons]
    cases hc : isGap c with
    | false => rfl
    | true =>
      obtain ⟨d, hd, hgap⟩ := h
      rcases List.mem_cons.mp hd with rfl | hd
      · rw [hc] at hgap
        cases hgap
      · exact ih ⟨d, hd, hgap⟩

/-- Texts look the same to a token if they start with the same characters. -/
theorem Sees.of_append {k : Kind} {cs : List Char} (hne : cs ≠ [])
    (h : k.isTrivia = true ∨ k = .endWord ∨ ∃ c ∈ cs.tail, isGap c = false)
    (after after' : List Char) : Sees k (cs ++ after) (cs ++ after') := by
  obtain ⟨c, cs, rfl⟩ := List.exists_cons_of_ne_nil hne
  refine ⟨rfl, ?_⟩
  rcases h with h | h | ⟨d, hd, hgap⟩
  · exact .inl h
  · exact .inr (.inl h)
  · exact .inr (.inr ⟨afterGap_append ⟨d, List.mem_of_mem_tail hd, hgap⟩ _ _,
      afterGap_append ⟨d, hd, hgap⟩ _ _⟩)

theorem isArithName_sees {after after' : List Char} (hhead : after'.head? = after.head?)
    (htail : afterGap after'.tail = afterGap after.tail) :
    isArithName after' = isArithName after := by
  cases after with
  | nil => cases after' <;> simp_all
  | cons c cs =>
    cases after' with
    | nil => cases hhead
    | cons d ds =>
      cases hhead
      simp only [isArithName]
      rw [show afterGap ds = afterGap cs from htail]

theorem wordKind_sees {word after after' : List Char}
    (h : Sees (wordKind word after).1 after after') :
    wordKind word after' = wordKind word after := by
  obtain ⟨hhead, htrivia | hend | ⟨hgap, htail⟩⟩ := h
  · simp [isTrivia_wordKind] at htrivia
  · have hword := (keyword?_of_wordKind (.inr hend)).1
    rw [hend] at hword
    simp [wordKind, hword]
  · unfold wordKind
    rw [isArithName_sees hhead htail, hgap]

theorem wordKind_two {word after : List Char} (h : (wordKind word after).2 ≠ 0) :
    wordKind word after = (.identifier, 1) ∧ word = ['s'] := by
  unfold wordKind at h ⊢
  grind

theorem scanWord_of_word {word rest : List Char}
    (h : (word ++ rest).takeWhile isWordPart = word) :
    scanWord (word ++ rest) = ((wordKind word rest).1, word.length + (wordKind word rest).2) := by
  rw [scanWord, h, List.drop_left]

theorem scanWord_sees {cs after after' : List Char} {k : Kind}
    (h : scanWord (cs ++ after) = (k, cs.length)) (hsees : Sees k after after') :
    scanWord (cs ++ after') = (k, cs.length) := by
  obtain ⟨word, rest, hsplit, hword⟩ : ∃ word rest, cs ++ after = word ++ rest ∧
      (word ++ rest).takeWhile isWordPart = word :=
    ⟨_, _, (@List.takeWhile_append_dropWhile _ isWordPart _).symm,
      by rw [List.takeWhile_append_dropWhile]⟩
  rw [hsplit, scanWord_of_word hword] at h
  obtain ⟨hkind, hlength⟩ := Prod.mk.inj h
  by_cases hextra : (wordKind word rest).2 = 0
  · -- The token is the word.
    rw [hextra, Nat.add_zero] at hlength
    obtain ⟨rfl, rfl⟩ := List.append_inj hsplit hlength.symm
    rw [scanWord_of_word (takeWhile_sees hsees.head hword), wordKind_sees (hkind ▸ hsees), hkind,
      hextra]
    rfl
  · -- The token is an `s` and an operator, and the character after blanks is a parenthesis.
    obtain ⟨heq, rfl⟩ := wordKind_two hextra
    rw [heq] at hkind hlength
    obtain ⟨s, x, rfl⟩ : ∃ s x, cs = [s, x] := by
      match cs, hlength with
      | [s, x], _ => exact ⟨s, x, rfl⟩
    obtain ⟨rfl, rfl⟩ := List.cons.inj hsplit
    subst hkind
    obtain ⟨hgap, -⟩ := hsees.gap_eq rfl nofun
    have hrest : Sees (wordKind ['s'] (x :: after)).1 (x :: after) (x :: after') := by
      refine ⟨rfl, .inr (.inr ⟨?_, hgap⟩)⟩
      rw [afterGap_cons, afterGap_cons, hgap]
    have hs : (['s'] ++ x :: after).takeWhile isWordPart = ['s'] := hword
    have hnext : (x :: after').head? = (x :: after).head? := rfl
    have hscan := scanWord_of_word (takeWhile_sees hnext hs)
    rw [wordKind_sees hrest, show wordKind ['s'] (x :: after) = (.identifier, 1) from heq] at hscan
    exact hscan

end Scan

open Scan in
/-- Texts that a scan of a token cannot tell apart can be exchanged after the token. -/
theorem scan_sees (firstColumn : Bool) (c : Char) {cs after after' : List Char} {k : Kind}
    (hsees : Sees k after after') :
    Keeps (k, (c :: cs).length) (scan firstColumn (c :: cs ++ after))
      (scan firstColumn (c :: cs ++ after')) := by
  have hhead := head?_append_sees hsees.head cs
  have hone (x : Char) (single double : Kind) :
      Keeps (k, (c :: cs).length) (.ok (oneOrTwo (cs ++ after) x single double))
        (.ok (oneOrTwo (cs ++ after') x single double)) := by
    rw [oneOrTwo, oneOrTwo, hhead]
    exact .refl _ _
  have hrun (p : Char → Bool) (kind : Kind) : Keeps (k, (c :: cs).length)
      (.ok (kind, ((c :: cs ++ after).takeWhile p).length))
      (.ok (kind, ((c :: cs ++ after').takeWhile p).length)) := by
    intro h
    obtain ⟨rfl, hlength⟩ := Prod.mk.inj (Except.ok.inj h)
    rw [length_takeWhile_sees hsees.head hlength]
  rw [List.cons_append, List.cons_append]
  rw [List.cons_append, List.cons_append] at hrun
  unfold scan
  refine .ite .rfl (fun _ => hrun _ _) fun _ => ?_
  refine .ite .rfl (fun _ => .refl _ _) fun _ => ?_
  refine .ite .rfl (fun _ => hone _ _ _) fun _ => ?_
  refine .ite .rfl (fun _ => .ite .rfl (fun _ => hrun _ _) fun _ => .refl _ _) fun _ => ?_
  iterate 6 refine .ite .rfl (fun _ => .refl _ _) fun _ => ?_
  iterate 2
    refine .ite .rfl (fun _ => .ite (by rw [hhead]) (fun _ => .refl _ _) fun _ => .refl _ _)
      fun _ => ?_
  iterate 6 refine .ite .rfl (fun _ => hone _ _ _) fun _ => ?_
  iterate 2 refine .ite .rfl (fun _ => .refl _ _) fun _ => ?_
  refine .ite .rfl (fun _ => ?_) fun _ => ?_
  · refine .ite (by rw [hhead]) (fun _ => hrun _ _) fun _ => ?_
    refine .ite (by rw [hhead]) (fun _ => ?_) fun _ => .refl _ _
    intro h
    cases cs with
    | nil =>
      split at h
      · cases h
      · cases h
    | cons d ds =>
      simp only [List.cons_append, List.drop_succ_cons, List.drop_zero] at h ⊢
      split at h
      · next n hend =>
        obtain ⟨rfl, hlength⟩ := Prod.mk.inj (Except.ok.inj h)
        obtain rfl : n = ds.length := by simpa using hlength
        rw [commentEnd?_sees hend]
        rfl
      · cases h
  refine .ite .rfl (fun _ => ?_) fun _ => ?_
  · intro h
    cases hlength : stringLength 0 0 (cs ++ after) with
    | error m => rw [hlength] at h; cases h
    | ok n =>
      rw [hlength] at h
      obtain ⟨rfl, rfl⟩ := Prod.mk.inj (Except.ok.inj h)
      rw [stringLength_sees hlength]
      rfl
  refine .ite .rfl (fun _ => hrun _ _) fun _ => ?_
  refine .ite .rfl (fun _ => ?_) fun _ => .refl _ _
  intro h
  have hword : scanWord (c :: cs ++ after) = (k, (c :: cs).length) := Except.ok.inj h
  exact congrArg Except.ok (scanWord_sees hword hsees)

end TierScript
