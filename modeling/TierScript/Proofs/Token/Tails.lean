import TierScript.Proofs.Token.Lookahead

/-!
# Giving back the tail of a word

A reader that has returned a word can be told to give back some bytes at its end. If they are a word
of their own they are what is read next, from where they stand. What comes after the word decides
nothing, with one exception: an `s` in front of an operator and an opening parenthesis is read with
the operator, as the name of an arithmetic function, although it was the end of another word before.

* `Scan.breaks_of_scan`: a word is scanned up to the first character that cannot be part of it.
* `Scan.wordKind_extra`: when a word takes a character more.
* `Reader.Holds.pushBack_tail`: the next token after the tail was given back.
* `Reader.Session.next_after_pushBack_tail`: the same for every source and after any operations.
-/

namespace TierScript

namespace Scan

variable {word front tail after : List Char}

theorem isWord_of_parts (hparts : ∀ c ∈ tail, isWordPart c = true)
    (htail : tail.head?.any isWordStart = true) : isWord tail = true := by
  cases tail with
  | nil => cases htail
  | cons c cs => exact Bool.and_eq_true_iff.mpr ⟨htail, List.all_eq_true.mpr
      (List.forall_mem_cons.mp hparts).2⟩

/-- A run of characters that does not go on after them. -/
theorem breaks_of_length_takeWhile (hparts : ∀ c ∈ word, isWordPart c = true)
    (hlength : ((word ++ after).takeWhile isWordPart).length ≤ word.length) : Breaks after := by
  intro c hc
  by_contra hpart
  obtain ⟨rest, rfl⟩ := List.head?_eq_some_iff.mp hc
  rw [List.takeWhile_append_of_pos hparts,
    List.takeWhile_cons_of_pos (Bool.not_eq_false _ ▸ hpart)] at hlength
  simp only [List.length_append, List.length_cons] at hlength
  omega

/-- A token of characters of words is a word or a number, and no word starts inside a number. So
    what follows it is no part of a word. -/
theorem breaks_of_scan {firstColumn : Bool} {k : Kind}
    (hscan : scan firstColumn (front ++ tail ++ after) = .ok (k, (front ++ tail).length))
    (hparts : ∀ c ∈ front ++ tail, isWordPart c = true)
    (htail : tail.head?.any isWordStart = true) : Breaks after := by
  obtain ⟨d, ds, rfl⟩ : ∃ d ds, tail = d :: ds := by
    cases tail with
    | nil => cases htail
    | cons d ds => exact ⟨d, ds, rfl⟩
  cases hword : front ++ d :: ds with
  | nil => simp at hword
  | cons c cs =>
    rw [hword] at hscan hparts
    have hc : isWordPart c = true := hparts c List.mem_cons_self
    by_cases hstart : isWordStart c = true
    · rw [List.cons_append, scan_of_isWordStart hstart, Except.ok.injEq] at hscan
      refine breaks_of_length_takeWhile hparts ?_
      have hlength := congrArg Prod.snd hscan
      simp only [scanWord] at hlength
      rw [List.cons_append]
      omega
    · by_cases hdigit : c.isDigit = true
      · rw [List.cons_append, scan_of_isDigit hdigit, Except.ok.injEq,
          ← List.cons_append] at hscan
        have hnumber := takeWhile_eq_of_length (congrArg Prod.snd hscan)
        have hd : d ∈ (c :: cs ++ after).takeWhile Char.isDigit := by
          rw [hnumber, ← hword]
          exact List.mem_append_right front List.mem_cons_self
        exact absurd (List.mem_takeWhile_imp hd) (by simp [not_isDigit_of_isWordStart htail])
      · have hmarks := not_mem_marks hc
        simp only [marks, List.mem_cons, not_or] at hmarks
        simp [scan, isGap, hmarks, hdigit, hstart] at hscan

/-- A word takes one more character only if it is `s` and that makes it an arithmetic name. -/
theorem wordKind_extra (word after : List Char) :
    (wordKind word after).2 = if word = ['s'] ∧ isArithName after = true then 1 else 0 := by
  have htier : keyword? ['s'] = some (.tier .loc) := by decide +kernel
  unfold wordKind
  grind

end Scan

open Text Scan

namespace Reader

variable {r : Reader} {w : Token} {front tail : List Char}

/-- A reader in front of a word reads it, and perhaps an operator after it. -/
theorem next_word {word after : List Char} (hahead : r.ahead = word ++ after)
    (hword : isWord word = true) (hafter : Scan.Breaks after) :
    ∃ t r', r.next = (.ok t, r') ∧ t.offset = r.offset + byteLength r.held ∧
      t.lexeme =
        word ++ if word = ['s'] ∧ isArithName after = true then after.take 1 else [] := by
  obtain ⟨t, r', hstep, hkind, hoffset, hlexeme⟩ : ∃ t r', r.step = (.ok t, r') ∧
      t.kind = (wordKind word after).1 ∧ t.offset = r.offset + byteLength r.held ∧
      t.lexeme = (word ++ after).take (word.length + (wordKind word after).2) := by
    simp only [step, commit_ahead, hahead, scan_word hword hafter]
    exact ⟨_, _, rfl, rfl, rfl, rfl⟩
  have hwanted : (r.skipTrivia && t.kind.isTrivia) = false := by
    rw [hkind, isTrivia_wordKind, Bool.and_false]
  refine ⟨t, r', next_of_step_ok hstep hwanted, hoffset, ?_⟩
  rw [hlexeme, List.take_length_add_append, wordKind_extra]
  split <;> simp

/-- What is read after the tail of a word was given back. -/
theorem Holds.next_pushBack_tail (h : r.Holds w) (hw : w.lexeme = front ++ tail)
    (hparts : ∀ c ∈ w.lexeme, isWordPart c = true) (htail : tail.head?.any isWordStart = true) :
    ∃ t r', (r.pushBack (byteLength tail)).next = (.ok t, r') ∧
      t.offset = r.offset + byteLength front ∧
      t.lexeme =
        tail ++ if tail = ['s'] ∧ isArithName r.ahead = true then r.ahead.take 1 else [] := by
  have hscanned := h.scanned
  have hheld : r.held = front ++ tail := h.lexeme.symm.trans hw
  rw [hw] at hscanned hparts
  rw [hheld] at hscanned
  have hbreaks := breaks_of_scan hscanned hparts htail
  have hword := isWord_of_parts (List.forall_mem_append.mp hparts).2 htail
  have hkeep : byteLength (front ++ tail) - byteLength tail = byteLength front := by
    rw [byteLength_append, Nat.add_sub_cancel]
  have hdrop : dropBytes (byteLength front) (front ++ tail) = tail := by
    simpa using dropBytes_append front tail 0
  simp only [pushBack, hheld, hkeep, takeBytes_byteLength, hdrop]
  exact next_word rfl hword hbreaks

end Reader

namespace Reader.Session

/-- After a word was read, the bytes at its end that can be a word are given back and read again,
    whatever the reader was asked before and whatever comes after the word in the source. The new
    token starts at the offset and the position of these bytes, and it consists of them; only an `s`
    that what follows makes an arithmetic name takes the operator with it. -/
theorem next_after_pushBack_tail (source : Source) (skipTrivia : Bool) (ops : List Op)
    {w : Token} {s' : Session} {front tail : List Char}
    (hnext : ((start source.text skipTrivia).after ops).perform .next = (.token w, s'))
    (hw : w.lexeme = front ++ tail) (hparts : ∀ c ∈ w.lexeme, isWordPart c = true)
    (htail : tail.head?.any isWordStart = true) :
    let rest := dropBytes (w.offset + byteLength w.lexeme) source.text
    ∃ t s'', (s'.perform (.pushBack (byteLength tail))).2.perform .next = (.token t, s'') ∧
      t.offset = w.offset + byteLength w.lexeme - byteLength tail ∧
      t.span.start = source.positionAt t.offset ∧
      t.lexeme = tail ++ if tail = ['s'] ∧ isArithName rest = true then rest.take 1 else [] := by
  intro rest
  have hstart : (start source.text skipTrivia).Stands source := ⟨[], in_ofText source skipTrivia⟩
  have hstands := (hstart.after ops).perform .next
  rw [hnext] at hstands
  obtain ⟨before, hin⟩ := hstands
  have hholds := next_holds (perform_next_token hnext).1
  obtain ⟨t, r', hread, hoffset, hlexeme⟩ := hholds.next_pushBack_tail hw hparts htail
  have hrest : rest = s'.reader.ahead := by
    have hdrop := dropBytes_append (before ++ s'.reader.held) s'.reader.ahead 0
    rwa [Nat.add_zero, byteLength_append, dropBytes_zero, ← hin.text, ← hin.offset,
      ← hholds.offset, ← hholds.lexeme] at hdrop
  obtain ⟨before', hin'⟩ := (hin.pushBack (byteLength tail)).next
  rw [hread] at hin'
  have hholds' := next_holds hread
  refine ⟨t, ⟨r', some t⟩, ?_, ?_, ?_, ?_⟩
  · simp only [Session.perform, hread]
  · rw [hoffset, hholds.offset, hw, byteLength_append]
    omega
  · rw [hholds'.span, hholds'.offset]
    exact hin'.position
  · rw [hlexeme, hrest]

/-- The end of `elif(1)` is read as `if`, from its own offset on. -/
theorem next_after_pushBack_tail_if :
    ∃ t s'', (((start "elif(1)".toList true).perform .next).2.perform (.pushBack 2)).2.perform
        .next = (.token t, s'') ∧ t.offset = 2 ∧ t.span.start = ⟨1, 3⟩ ∧ t.lexeme = ['i', 'f'] := by
  have hnext : ((start "elif(1)".toList true).after []).perform .next =
      (.token ⟨.identifier, ['e', 'l', 'i', 'f'], 0, ⟨⟨1, 1⟩, ⟨1, 4⟩⟩⟩,
        ((start "elif(1)".toList true).perform .next).2) := by decide +kernel
  obtain ⟨t, s'', hread, hoffset, hstart, hlexeme⟩ :=
    next_after_pushBack_tail (.ofString "" "elif(1)") true [] hnext
      (show _ = ['e', 'l'] ++ ['i', 'f'] from rfl) (List.all_eq_true.mp (by decide)) (by decide)
  have hoffset : t.offset = 2 := hoffset
  refine ⟨t, s'', hread, hoffset, ?_, hlexeme⟩
  rw [hstart, hoffset]
  decide +kernel

/-- In `as+(1)` the `s` is read with the `+`, although it was given back alone. -/
theorem arithmetic_name_after_pushBack :
    (start "as+(1)".toList false).performAll [.next, .pushBack 1, .next] =
      [.token ⟨.identifier, ['a', 's'], 0, ⟨⟨1, 1⟩, ⟨1, 2⟩⟩⟩, .nothing,
        .token ⟨.identifier, ['s', '+'], 1, ⟨⟨1, 2⟩, ⟨1, 3⟩⟩⟩] := by
  decide +kernel

end Reader.Session

end TierScript
