import TierScript.Proofs.Token.Reading
import TierScript.Token.Literal

/-!
# Writing tokens

A text is written piece by piece. A piece is a token of a fixed spelling, a name, a number, a string
or a blank. The pieces can be read back one by one if each of them, with the text of the pieces
after it, is scanned as itself (`Clean`).

* `Reader.lexes_of_clean`: a text of clean pieces has exactly the tokens of these pieces.
* `scans_*`: when a piece is scanned as itself, which depends on the character after it.
-/

namespace TierScript

open Scan (isWordStart isWordPart isGap)

/-! ## Pieces -/

/-- What a text is made of. -/
inductive Piece where
  /-- A token that has only one spelling. -/
  | fixed (kind : Kind)
  | name (s : String)
  | number (n : Nat)
  | str (s : String)
  | space
  | newline
  deriving DecidableEq, Repr

/-- A quote, a backslash and the two characters of line ends are written with a backslash. -/
def Literal.escape (c : Char) : List Char :=
  if c = '\x22' then ['\x5c', '\x22']
  else if c = '\x5c' then ['\x5c', '\x5c']
  else if c = '\n' then ['\x5c', 'n']
  else if c = '\r' then ['\x5c', 'r']
  else [c]

/-- The literal that stands for a text. -/
def Literal.encode (text : List Char) : List Char :=
  '\x22' :: (text.flatMap Literal.escape ++ ['\x22'])

namespace Piece

/-- The kind of the token. -/
def kind : Piece → Kind
  | fixed kind => kind
  | name _ => .identifier
  | number _ => .number
  | str _ => .str
  | space => .whitespace
  | newline => .newline

/-- The spelling. -/
def chars : Piece → List Char
  | fixed kind => kind.render.toList
  | name s => s.toList
  | number n => Nat.toDigits 10 n
  | str s => Literal.encode s.toList
  | space => [' ']
  | newline => ['\n']

/-- The spelling of pieces one after another. -/
def text (ps : List Piece) : List Char := ps.flatMap chars

@[simp] theorem text_nil : text [] = [] := rfl

@[simp] theorem text_cons (p : Piece) (ps : List Piece) : text (p :: ps) = p.chars ++ text ps := rfl

/-- The piece is scanned as itself before the text `after`, in any column. -/
structure Scans (p : Piece) (after : List Char) : Prop where
  kind : p.kind ≠ .eof
  scan : ∀ firstColumn, scan firstColumn (p.chars ++ after) = .ok (p.kind, p.chars.length)

/-- The piece does not end a line. -/
def Inline (p : Piece) : Prop := ∃ cs c, p.chars = cs ++ [c] ∧ Source.isLineEnd c = false

/-- Every piece is scanned as itself. A dot is only scanned as itself after another piece of the
    same line. -/
inductive Clean : List Piece → Prop where
  | nil : Clean []
  | cons {p : Piece} {ps : List Piece} : p.Scans (text ps) → Clean ps → Clean (p :: ps)
  | dot {p : Piece} {ps : List Piece} : p.Scans ('.' :: text ps) → p.Inline → Clean ps →
      Clean (p :: .fixed .dot :: ps)

end Piece

/-! ## Positions -/

namespace Position

theorem col_next_pos (p : Position) (b : Bool) : 0 < (p.next b).col := by
  unfold next
  split <;> simp

theorem col_after_pos {p : Position} (h : 0 < p.col) (next : Option Char) (cs : List Char) :
    0 < (p.after next cs).col := by
  induction cs generalizing p with
  | nil => exact h
  | cons c cs ih => exact ih (col_next_pos _ _)

/-- After a character that does not end a line, the next one is not in the first column. -/
theorem one_lt_col_after {p : Position} (h : 0 < p.col) {next : Option Char} {c : Char}
    (hc : Source.isLineEnd c = false) (cs : List Char) :
    1 < (p.after next (cs ++ [c])).col := by
  induction cs generalizing p with
  | nil =>
    have hline : endsLine c next = false := by
      simp only [Source.isLineEnd, Bool.or_eq_false_iff, beq_eq_false_iff_ne] at hc
      simp [endsLine, hc.1, hc.2]
    simp [after, Position.next, hline, h]
  | cons d cs ih =>
    exact ih (col_next_pos _ _)

end Position

/-! ## Reading back -/

namespace Reader

open Piece

variable {r r' : Reader} {ps : List Piece}

/-- The column that the next token starts in. -/
def column (r : Reader) : Nat := r.commit.position.col

theorem step_of_scan {p : Piece} {after : List Char} (hahead : r.ahead = p.chars ++ after)
    (hscan : scan (r.column == 1) (p.chars ++ after) = .ok (p.kind, p.chars.length)) :
    ∃ t r', r.step = (.ok t, r') ∧ t.kind = p.kind ∧ t.lexeme = p.chars ∧ r'.ahead = after ∧
      (0 < r.column → 0 < r'.column) ∧ (0 < r.column → p.Inline → 1 < r'.column) := by
  have hcommit : r.commit.ahead = p.chars ++ after := hahead
  unfold column at hscan
  refine ⟨⟨p.kind, p.chars, r.commit.offset, .ofText r.commit.position p.chars⟩,
    { r.commit with held := p.chars, ahead := after }, ?_, rfl, rfl, rfl, ?_, ?_⟩
  · simp only [step, hcommit, hscan, List.take_left, List.drop_left]
  · intro h
    exact Position.col_after_pos h _ _
  · rintro h ⟨cs, c, hcs, hc⟩
    simp only [column, commit, hcs]
    exact Position.one_lt_col_after h hc _

/-- A text of clean pieces has the tokens of these pieces. -/
theorem lexes_of_clean (h : Clean ps) (hahead : r.ahead = text ps) (hcol : 0 < r.column) :
    ∃ ts, Lexes r ts ∧
      ts.map (fun t => (t.kind, t.lexeme)) =
        ps.map (fun p => (p.kind, p.chars)) ++ [(.eof, [])] := by
  induction h generalizing r with
  | nil =>
    obtain ⟨t, r', hstep, hk, hl⟩ := step_of_nil hahead
    exact ⟨[t], .stop hstep hk, by simp [hk, hl]⟩
  | @cons p ps hp _ ih =>
    obtain ⟨t, r', hstep, hk, hl, hahead', hcol', -⟩ := step_of_scan hahead (hp.scan _)
    obtain ⟨ts, hlexes, hts⟩ := ih hahead' (hcol' hcol)
    refine ⟨t :: ts, .next hstep (hk ▸ hp.kind) hlexes, ?_⟩
    rw [List.map_cons, hts, hk, hl]
    rfl
  | @dot p ps hp hinline _ ih =>
    obtain ⟨t, r', hstep, hk, hl, hahead', -, hcol'⟩ := step_of_scan hahead (hp.scan _)
    have hcol' := hcol' hcol hinline
    have hdot : scan (r'.column == 1) ((Piece.fixed .dot).chars ++ text ps) =
        .ok ((Piece.fixed .dot).kind, (Piece.fixed .dot).chars.length) := by
      rw [beq_eq_false_iff_ne.mpr (Nat.ne_of_gt hcol')]
      rfl
    obtain ⟨t', r'', hstep', hk', hl', hahead'', hcol'', -⟩ := step_of_scan hahead' hdot
    obtain ⟨ts, hlexes, hts⟩ := ih hahead'' (hcol'' (Nat.lt_trans Nat.zero_lt_one hcol'))
    have hdotted := Lexes.next hstep' (by rw [hk']; nofun) hlexes
    refine ⟨t :: t' :: ts, .next hstep (hk ▸ hp.kind) hdotted, ?_⟩
    rw [List.map_cons, List.map_cons, hts, hk, hl, hk', hl']
    rfl

end Reader

/-! ## Tokens of pieces -/

/-- The tokens are those of the pieces, blanks apart. -/
def Reads (ts : List Token) (ps : List Piece) : Prop :=
  ts.map (fun t => (t.kind, t.lexeme)) =
    (ps.filter fun p => !p.kind.isTrivia).map fun p => (p.kind, p.chars)

section

variable {ts : List Token} {ps qs : List Piece}

namespace Reads

theorem nil (h : Reads ts []) : ts = [] := List.map_eq_nil_iff.mp h

theorem space (h : Reads ts (.space :: ps)) : Reads ts ps := h

theorem newline (h : Reads ts (.newline :: ps)) : Reads ts ps := h

theorem cons {p : Piece} (h : Reads ts (p :: ps)) (hp : p.kind.isTrivia = false) :
    ∃ t us, ts = t :: us ∧ t.kind = p.kind ∧ t.lexeme = p.chars ∧ Reads us ps := by
  simpa only [Reads, List.filter_cons, hp, Bool.not_false, if_true, List.map_cons,
    List.map_eq_cons_iff, Prod.mk.injEq, and_assoc] using h

theorem fixed {k : Kind} (h : Reads ts (.fixed k :: ps)) (hk : k.isTrivia = false) :
    ∃ t us, ts = t :: us ∧ t.kind = k ∧ Reads us ps := by
  obtain ⟨t, us, hts, hkind, -, hus⟩ := h.cons hk
  exact ⟨t, us, hts, hkind, hus⟩

theorem name {s : String} (h : Reads ts (.name s :: ps)) :
    ∃ t us, ts = t :: us ∧ t.kind = .identifier ∧ t.text = s ∧ Reads us ps := by
  obtain ⟨t, us, hts, hkind, hlexeme, hus⟩ := h.cons rfl
  exact ⟨t, us, hts, hkind, by rw [Token.text, hlexeme, Piece.chars, String.ofList_toList], hus⟩

theorem append (h : Reads ts (ps ++ qs)) : ∃ us vs, ts = us ++ vs ∧ Reads us ps ∧ Reads vs qs := by
  simpa only [Reads, List.filter_append, List.map_append, List.map_eq_append_iff] using h

end Reads

/-- The text of clean pieces has the tokens of the pieces, and then it ends. -/
theorem Reader.exists_lexes_of_clean (h : Piece.Clean ps) :
    ∃ ts us e, (Reader.ofText (Piece.text ps) false).Lexes ts ∧ Token.solid ts = us ++ [e] ∧
      e.kind = .eof ∧ Reads us ps := by
  obtain ⟨ts, hlexes, hts⟩ :=
    lexes_of_clean h (r := Reader.ofText (Piece.text ps) false) rfl Nat.zero_lt_one
  obtain ⟨us, es, rfl, hus, hes⟩ := List.map_eq_append_iff.mp hts
  obtain ⟨e, rfl, he⟩ := List.map_eq_singleton_iff.mp hes
  have hkind : e.kind = .eof := congrArg Prod.fst he
  refine ⟨_, Token.solid us, e, hlexes, ?_, hkind, ?_⟩
  · simp [Token.solid, hkind, Kind.isTrivia]
  · have hfilter := congrArg (List.filter fun k => !k.1.isTrivia) hus
    rwa [List.filter_map, List.filter_map] at hfilter

end


/-! ## What is scanned as itself -/

namespace Scan

/-- The characters that start a token of their own. -/
def marks : List Char :=
  [' ', '\t', '\x0c', '\n', '\r', '.', ',', ';', '(', ')', '\x7b', '\x7d', '&', '|', '?', '*', '=',
    '!', '<', '>', '+', '-', '/', '\x22']

theorem isWordPart_marks : ∀ c ∈ marks, isWordPart c = false := by
  have hall : marks.all (fun c => !isWordPart c) = true := by decide
  intro c hc
  simpa using List.all_eq_true.mp hall c hc

theorem not_mem_marks {c : Char} (h : isWordPart c = true) : c ∉ marks := by
  intro hc
  rw [isWordPart_marks c hc] at h
  cases h

theorem isWordPart_of_isWordStart {c : Char} (h : isWordStart c = true) : isWordPart c = true := by
  unfold isWordStart at h
  unfold isWordPart
  grind

theorem toNat_of_isDigit {c : Char} (h : c.isDigit = true) : 48 ≤ c.toNat ∧ c.toNat ≤ 57 := by
  simp only [Char.isDigit, Bool.and_eq_true, decide_eq_true_eq] at h
  exact ⟨UInt32.le_iff_toNat_le.mp h.1, UInt32.le_iff_toNat_le.mp h.2⟩

theorem isWordPart_of_isDigit {c : Char} (h : c.isDigit = true) : isWordPart c = true := by
  have hlow : c.toNat < 0x80 := Nat.lt_of_le_of_lt (toNat_of_isDigit h).2 (by decide)
  simp [isWordPart, Text.isNumeral, hlow, h]

theorem not_isDigit_of_isWordStart {c : Char} (h : isWordStart c = true) : c.isDigit = false := by
  refine Bool.eq_false_iff.mpr fun hdigit => ?_
  have hrange := toNat_of_isDigit hdigit
  have halpha : c.isAlpha = false := by
    refine Bool.eq_false_iff.mpr fun hletter => ?_
    change (decide (c.val ≥ 'A'.val ∧ c.val ≤ 'Z'.val) ||
      decide (c.val ≥ 'a'.val) && decide (c.val ≤ 'z'.val)) = true at hletter
    simp only [Bool.or_eq_true, Bool.and_eq_true, decide_eq_true_eq, ge_iff_le,
      UInt32.le_iff_toNat_le] at hletter
    change (65 ≤ c.toNat ∧ c.toNat ≤ 90) ∨ (97 ≤ c.toNat ∧ c.toNat ≤ 122) at hletter
    omega
  have hlow : c.toNat < 0x80 := Nat.lt_of_le_of_lt hrange.2 (by decide)
  simp only [isWordStart, Text.isLetter, hlow, if_true, halpha, Bool.false_or, Bool.or_eq_true,
    beq_iff_eq] at h
  rcases h with rfl | rfl <;> cases hdigit

theorem scan_of_isWordStart {c : Char} (h : isWordStart c = true) (firstColumn : Bool)
    (cs : List Char) : scan firstColumn (c :: cs) = .ok (scanWord (c :: cs)) := by
  have hmarks := not_mem_marks (isWordPart_of_isWordStart h)
  have hdigit := not_isDigit_of_isWordStart h
  simp only [marks, List.mem_cons, not_or] at hmarks
  simp [scan, isGap, hmarks, hdigit, h]

/-- A word: a character that can start one, then characters that can continue it. -/
def isWord : List Char → Bool
  | [] => false
  | c :: cs => isWordStart c && cs.all isWordPart

/-- The text does not go on with a character of a word. -/
def Breaks (after : List Char) : Prop := ∀ c ∈ after.head?, isWordPart c = false

theorem takeWhile_append {p : Char → Bool} {cs after : List Char} (hcs : ∀ c ∈ cs, p c = true)
    (hafter : ∀ c ∈ after.head?, p c = false) : (cs ++ after).takeWhile p = cs := by
  rw [List.takeWhile_append_of_pos hcs]
  cases after with
  | nil => simp
  | cons c after => simp [hafter c rfl]

theorem scan_word {word after : List Char} (hword : isWord word = true) (hafter : Breaks after)
    (firstColumn : Bool) :
    scan firstColumn (word ++ after) =
      .ok ((wordKind word after).1, word.length + (wordKind word after).2) := by
  cases word with
  | nil => cases hword
  | cons c cs =>
    obtain ⟨hc, hcs⟩ := Bool.and_eq_true_iff.mp hword
    have hparts : ∀ d ∈ c :: cs, isWordPart d = true :=
      List.forall_mem_cons.mpr ⟨isWordPart_of_isWordStart hc, List.all_eq_true.mp hcs⟩
    rw [List.cons_append, scan_of_isWordStart hc, ← List.cons_append, scanWord,
      takeWhile_append hparts hafter, List.drop_left]

theorem scan_of_isDigit {c : Char} (h : c.isDigit = true) (firstColumn : Bool) (cs : List Char) :
    scan firstColumn (c :: cs) = .ok (.number, ((c :: cs).takeWhile Char.isDigit).length) := by
  have hmarks := not_mem_marks (isWordPart_of_isDigit h)
  simp only [marks, List.mem_cons, not_or] at hmarks
  simp [scan, isGap, hmarks, h]

end Scan

namespace Literal

open Scan (isHexDigit isShortEscape stringLength)

/-- A character is written with a short escape that stands for it, or as it is. -/
theorem escape_cases (c : Char) :
    (∃ e, escape c = ['\x5c', e] ∧ isShortEscape e = true ∧ e ≠ 'u' ∧ charOfEscape e = c) ∨
      (escape c = [c] ∧ c ≠ '\x22' ∧ c ≠ '\x5c' ∧ Source.isLineEnd c = false) := by
  unfold escape
  split
  · next h => exact .inl ⟨_, rfl, by decide, by decide, h.symm⟩
  split
  · next h => exact .inl ⟨_, rfl, by decide, by decide, h.symm⟩
  split
  · next h => exact .inl ⟨_, rfl, by decide, by decide, h.symm⟩
  split
  · next h => exact .inl ⟨_, rfl, by decide, by decide, h.symm⟩
  · next hquote hslash hfeed hreturn =>
    exact .inr ⟨rfl, hquote, hslash, by simp [Source.isLineEnd, hfeed, hreturn]⟩

theorem stringLength_quote (bytes count : Nat) (cs : List Char) :
    stringLength bytes count ('\x22' :: cs) = .ok (count + 2) := by
  simp [Scan.stringLength.eq_def]

theorem stringLength_short {e : Char} (h : isShortEscape e = true) (bytes count : Nat)
    (cs : List Char) :
    stringLength bytes count ('\x5c' :: e :: cs) = stringLength (bytes + 2) (count + 2) cs := by
  rw [Scan.stringLength.eq_def]
  simp [h, Source.isLineEnd]

theorem stringLength_hex {h₁ h₂ h₃ h₄ : Char}
    (h : (isHexDigit h₁ && isHexDigit h₂ && isHexDigit h₃ && isHexDigit h₄) = true)
    (bytes count : Nat) (cs : List Char) :
    stringLength bytes count ('\x5c' :: 'u' :: h₁ :: h₂ :: h₃ :: h₄ :: cs) =
      stringLength (bytes + 6) (count + 6) cs := by
  rw [stringLength, if_pos h]
  rfl

theorem stringLength_plain {c : Char} (hquote : c ≠ '\x22') (hslash : c ≠ '\x5c')
    (hline : Source.isLineEnd c = false) (bytes count : Nat) (cs : List Char) :
    stringLength bytes count (c :: cs) = stringLength (bytes + c.utf8Size) (count + 1) cs := by
  rw [Scan.stringLength.eq_def]
  simp [hquote, hslash, hline]

theorem stringLength_escape (bytes count : Nat) (cs after : List Char) :
    stringLength bytes count (cs.flatMap escape ++ '\x22' :: after) =
      .ok (count + (cs.flatMap escape).length + 2) := by
  induction cs generalizing bytes count with
  | nil => exact stringLength_quote bytes count after
  | cons c cs ih =>
    rw [List.flatMap_cons, List.append_assoc, List.length_append]
    rcases escape_cases c with ⟨e, hesc, hshort, -, -⟩ | ⟨hesc, hquote, hslash, hline⟩
    · simp only [hesc, List.cons_append, List.nil_append, stringLength_short hshort, ih,
        List.length_cons, List.length_nil]
      congr 1
      omega
    · simp only [hesc, List.cons_append, List.nil_append, stringLength_plain hquote hslash hline,
        ih, List.length_cons, List.length_nil]
      congr 1
      omega

theorem decodeBody_short {e : Char} (h : e ≠ 'u') (cs : List Char) :
    decodeBody ('\x5c' :: e :: cs) = charOfEscape e :: decodeBody cs := by
  rw [decodeBody.eq_def]
  simp [h]

theorem decodeBody_plain {c : Char} (h : c ≠ '\x5c') (cs : List Char) :
    decodeBody (c :: cs) = c :: decodeBody cs := by
  rw [decodeBody.eq_def]
  simp [h]

theorem decodeBody_escape (cs : List Char) : decodeBody (cs.flatMap escape) = cs := by
  induction cs with
  | nil => simp [decodeBody]
  | cons c cs ih =>
    rw [List.flatMap_cons]
    rcases escape_cases c with ⟨e, hesc, -, hne, hchar⟩ | ⟨hesc, -, hslash, -⟩
    · simp only [hesc, List.cons_append, List.nil_append, decodeBody_short hne, hchar, ih]
    · simp only [hesc, List.cons_append, List.nil_append, decodeBody_plain hslash, ih]

/-- Reading a literal inverts writing it. -/
theorem decode_encode (cs : List Char) : decode (encode cs) = cs := by
  have hinside : inside (encode cs) = cs.flatMap escape := by
    simp [inside, encode]
  rw [decode, hinside, decodeBody_escape]

end Literal

namespace Piece

open Scan

variable {after : List Char}

theorem scans_name {s : String} (hword : isWord s.toList = true)
    (hfree : keyword? s.toList = none) (hafter : Breaks after) : (name s).Scans after := by
  refine ⟨nofun, fun firstColumn => ?_⟩
  have hkind : wordKind s.toList after = (.identifier, 0) := by
    unfold wordKind
    rw [hfree]
  rw [chars, scan_word hword hafter, hkind]
  rfl

theorem inline_name {s : String} (hword : isWord s.toList = true) : (name s).Inline := by
  have hparts : s.toList ≠ [] ∧ ∀ d ∈ s.toList, isWordPart d = true := by
    generalize s.toList = word at hword
    cases word with
    | nil => cases hword
    | cons c cs =>
      obtain ⟨hc, hcs⟩ := Bool.and_eq_true_iff.mp hword
      exact ⟨nofun, List.forall_mem_cons.mpr
        ⟨isWordPart_of_isWordStart hc, List.all_eq_true.mp hcs⟩⟩
  obtain ⟨cs, c, hs⟩ := (List.eq_nil_or_concat s.toList).resolve_left hparts.1
  rw [List.concat_eq_append] at hs
  refine ⟨cs, c, hs, Bool.eq_false_iff.mpr fun hend => ?_⟩
  have hc : isWordPart c = true := hparts.2 c (by rw [hs]; simp)
  simp only [Source.isLineEnd, Bool.or_eq_true, beq_iff_eq] at hend
  rcases hend with rfl | rfl <;> cases hc

theorem scans_number {n : Nat} (hafter : Breaks after) : (number n).Scans after := by
  refine ⟨nofun, fun firstColumn => ?_⟩
  have hdigits : ∀ c ∈ Nat.toDigits 10 n, c.isDigit = true := fun c hc =>
    Nat.isDigit_of_mem_toDigits (by decide) (by decide) hc
  have hstop : ∀ c ∈ after.head?, c.isDigit = false := by
    intro c hc
    refine Bool.eq_false_iff.mpr fun hdigit => ?_
    have := hafter c hc
    rw [isWordPart_of_isDigit hdigit] at this
    cases this
  have htake := takeWhile_append hdigits hstop
  rw [chars]
  cases hn : Nat.toDigits 10 n with
  | nil => exact absurd hn Nat.toDigits_ne_nil
  | cons c cs =>
    rw [hn] at htake hdigits
    rw [List.cons_append, scan_of_isDigit (hdigits c List.mem_cons_self), ← List.cons_append, htake]
    rfl

theorem scans_str {s : String} : (str s).Scans after := by
  refine ⟨nofun, fun firstColumn => ?_⟩
  have hscan (cs : List Char) :
      scan firstColumn ('\x22' :: cs) = (stringLength 0 0 cs).map fun n => (.str, n) := rfl
  have hlength : (Literal.encode s.toList).length =
      (s.toList.flatMap Literal.escape).length + 2 := by
    simp [Literal.encode]
  rw [chars, hlength, Literal.encode, List.cons_append, List.append_assoc, hscan]
  rw [List.cons_append, Literal.stringLength_escape, Nat.zero_add]
  rfl

theorem scans_space (hafter : ∀ c ∈ after.head?, isGap c = false) : space.Scans after := by
  refine ⟨nofun, fun firstColumn => ?_⟩
  have htake : ([' '] ++ after).takeWhile isGap = [' '] :=
    takeWhile_append (List.forall_mem_singleton.mpr rfl) hafter
  have hscan : scan firstColumn (' ' :: after) =
      .ok (.whitespace, ((' ' :: after).takeWhile isGap).length) := rfl
  exact hscan.trans (by rw [← List.singleton_append, htake]; rfl)

theorem scans_newline : newline.Scans after := ⟨nofun, fun _ => rfl⟩

end Piece

/-- The characters that must not follow a mark, if tokens of the kind are marks. -/
def Kind.clashes : Kind → Option (List Char)
  | .comma | .openParen | .closeParen | .openBrace | .closeBrace | .semicolon | .andAnd | .orOr
  | .startsWith | .endsWith | .eqEq | .notEq | .ltEq | .gtEq | .plus | .minus => some []
  | .eq | .not | .lt | .gt => some ['=']
  | .contains => some ['*']
  | .star => some ['?']
  | .slash => some ['/', '.']
  | _ => none

/-- Reserved words that are such whatever follows them. -/
def Kind.plainWords : List Kind :=
  [.trueWord, .falseWord, .nullWord, .elseWord, .breakWord, .endcodeWord, .fnWord, .endWord]

/-- Reserved words that are such only before an opening parenthesis. -/
def Kind.openingWords : List Kind := [.ifWord, .whileWord, .forWord]

/-- The words of the tiers. -/
def Kind.tierWords : List Kind := [.tier .loc, .tier .session, .tier .global]

namespace Piece

open Scan

variable {after : List Char}

theorem oneOrTwo_of_head_ne {rest : List Char} {second : Char} {single double : Kind}
    (h : ∀ c ∈ rest.head?, c ∉ [second]) : oneOrTwo rest second single double = (single, 1) := by
  rw [oneOrTwo, if_neg]
  intro hhead
  exact h second hhead List.mem_cons_self

theorem scans_mark {k : Kind} {cs : List Char} (hk : k.clashes = some cs)
    (hafter : ∀ c ∈ after.head?, c ∉ cs) : (fixed k).Scans after := by
  cases k with
  | comma | openParen | closeParen | openBrace | closeBrace | semicolon | andAnd | orOr
  | startsWith | endsWith | eqEq | notEq | ltEq | gtEq | plus | minus =>
    exact ⟨nofun, fun _ => rfl⟩
  | eq | not | lt | gt | contains | star =>
    cases hk
    exact ⟨nofun, fun _ => congrArg Except.ok (oneOrTwo_of_head_ne hafter)⟩
  | slash =>
    cases hk
    refine ⟨nofun, fun firstColumn => ?_⟩
    have hslash : after.head? ≠ some '/' := fun h => hafter _ h (by decide)
    have hdot : after.head? ≠ some '.' := fun h => hafter _ h (by decide)
    change (if after.head? = some '/' then _ else if after.head? = some '.' then _ else _) = _
    rw [if_neg hslash, if_neg hdot]
    rfl
  | _ => cases hk

/-- Every reserved word is a word that the table knows. -/
theorem isWord_render : ∀ k ∈ Kind.plainWords ++ Kind.openingWords ++ Kind.tierWords,
    isWord k.render.toList = true ∧ keyword? k.render.toList = some k := by
  decide +kernel

/-- A reserved word is scanned as itself where the text after it does not make it another word. -/
theorem scans_reserved {k : Kind} (hk : k ∈ Kind.plainWords ++ Kind.openingWords ++ Kind.tierWords)
    (hafter : Breaks after) (hkind : wordKind k.render.toList after = (k, 0)) :
    (fixed k).Scans after := by
  refine ⟨?_, fun firstColumn => ?_⟩
  · rintro rfl
    exact absurd hk (by decide)
  · rw [chars, scan_word (isWord_render k hk).1 hafter, hkind]
    rfl

theorem scans_plainWord {k : Kind} (hk : k ∈ Kind.plainWords) (hafter : Breaks after) :
    (fixed k).Scans after := by
  have hmem : k ∈ Kind.plainWords ++ Kind.openingWords ++ Kind.tierWords := by simp [hk]
  refine scans_reserved hmem hafter ?_
  unfold wordKind
  rw [(isWord_render k hmem).2]
  simp only [Kind.plainWords, List.mem_cons, List.not_mem_nil, or_false] at hk
  rcases hk with rfl | rfl | rfl | rfl | rfl | rfl | rfl | rfl <;> rfl

theorem scans_openingWord {k : Kind} (hk : k ∈ Kind.openingWords) (cs : List Char) :
    (fixed k).Scans (' ' :: '(' :: cs) := by
  have hmem : k ∈ Kind.plainWords ++ Kind.openingWords ++ Kind.tierWords := by simp [hk]
  refine scans_reserved hmem (by rintro c ⟨⟩; decide) ?_
  unfold wordKind
  rw [(isWord_render k hmem).2]
  simp only [Kind.openingWords, List.mem_cons, List.not_mem_nil, or_false] at hk
  rcases hk with rfl | rfl | rfl <;> rfl

theorem scans_tier (t : Tier) (cs : List Char) : (fixed (.tier t)).Scans ('.' :: cs) := by
  have hmem : Kind.tier t ∈ Kind.plainWords ++ Kind.openingWords ++ Kind.tierWords := by
    cases t <;> decide
  refine scans_reserved hmem (by rintro c ⟨⟩; decide) ?_
  unfold wordKind
  rw [(isWord_render _ hmem).2]
  cases t <;> rfl

theorem inline_tier (t : Tier) : (fixed (.tier t)).Inline := by
  cases t
  · exact ⟨[], 's', rfl, rfl⟩
  · exact ⟨['s'], 's', rfl, rfl⟩
  · exact ⟨['s', 's'], 's', rfl, rfl⟩

end Piece

end TierScript
