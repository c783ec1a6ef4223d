import TierScript.Proofs.Token.Cursor
import TierScript.Proofs.Token.Pieces

/-!
# String literals

The scanner looks for the end of a literal, and `decode` turns its spelling into a text. They are
two loops over escapes, which agree on one grammar: a literal is a list of items between two quotes,
and every item stands for one character.

* `Literal.Item`, `Literal.spell`: the grammar, and what each item stands for.
* `Literal.stringLength_eq_ok_iff`: the scanner finds the end of a literal exactly where the grammar
  has one.
* `Literal.decode_spell`: decoding goes item by item, and `Literal.strict?_spell`: without ever
  falling back on a replacement for a malformed escape.
* `Reader.next_reads_literal`: what is read before a text that begins with a quote.
-/

namespace TierScript

open Scan (isShortEscape isHexDigit stringLength)

namespace Literal

/-! ## The grammar -/

/-- The characters that a backslash may stand before on their own, with what the two stand for. -/
def shortEscapes : List (Char × Char) :=
  [('n', '\n'), ('t', '\t'), ('r', '\r'), ('f', '\x0c'), ('b', '\x08'), ('0', '\x00'),
    ('\x22', '\x22'), ('\x27', '\x27'), ('\x5c', '\x5c')]

/-- A hexadecimal digit with its value. Its letters may be small or capital. -/
structure HexDigit where
  char : Char
  value : Fin 16
  spelled : char = Nat.digitChar value ∨ char = (Nat.digitChar value).toUpper

/-- The character with a code point of at most four hexadecimal digits. A surrogate is no character
    and gives U+FFFD. -/
def charOfCode (n : Nat) : Char :=
  if 0xd800 ≤ n ∧ n ≤ 0xdfff then '\ufffd' else Char.ofNat n

/-- The number with four hexadecimal digits. -/
def codeOf (d₁ d₂ d₃ d₄ : HexDigit) : Nat :=
  16 * (16 * (16 * d₁.value.val + d₂.value.val) + d₃.value.val) + d₄.value.val

/-- What stands for one character in a literal. -/
inductive Item where
  /-- A character that stands for itself. -/
  | plain (c : Char) (h : c ∉ ['\x22', '\x5c', '\n', '\r'])
  /-- A backslash and one of the characters that may follow it on their own. -/
  | short (e c : Char) (h : (e, c) ∈ shortEscapes)
  /-- `\u` and four hexadecimal digits. -/
  | code (d₁ d₂ d₃ d₄ : HexDigit)

namespace Item

/-- The spelling. -/
def chars : Item → List Char
  | plain c _ => [c]
  | short e _ _ => ['\x5c', e]
  | code d₁ d₂ d₃ d₄ => ['\x5c', 'u', d₁.char, d₂.char, d₃.char, d₄.char]

/-- The character that the item stands for. -/
def value : Item → Char
  | plain c _ => c
  | short _ c _ => c
  | code d₁ d₂ d₃ d₄ => charOfCode (codeOf d₁ d₂ d₃ d₄)

end Item

/-- The spelling of items one after another. -/
def body (items : List Item) : List Char := items.flatMap Item.chars

/-- The literal with the given items. -/
def spell (items : List Item) : List Char := '\x22' :: (body items ++ ['\x22'])

@[simp] theorem body_cons (x : Item) (xs : List Item) : body (x :: xs) = x.chars ++ body xs := rfl

/-! ## Characters of the grammar -/

theorem isShortEscape_of_mem {e c : Char} (h : (e, c) ∈ shortEscapes) :
    isShortEscape e = true ∧ e ≠ 'u' ∧ charOfEscape e = c := by
  have hall : ∀ x ∈ shortEscapes,
      isShortEscape x.1 = true ∧ x.1 ≠ 'u' ∧ charOfEscape x.1 = x.2 := by
    decide
  exact hall _ h

theorem mem_of_isShortEscape {e : Char} (h : isShortEscape e = true) :
    ∃ c, (e, c) ∈ shortEscapes := by
  have hlisted : e ∈ shortEscapes.map Prod.fst := List.contains_iff_mem.mp h
  obtain ⟨⟨_, c⟩, hc, rfl⟩ := List.mem_map.mp hlisted
  exact ⟨c, hc⟩

theorem HexDigit.isHexDigit_char (d : HexDigit) : isHexDigit d.char = true := by
  have hall : ∀ n : Fin 16, isHexDigit (Nat.digitChar n) = true ∧
      isHexDigit (Nat.digitChar n).toUpper = true := by decide
  rcases d.spelled with h | h <;> rw [h]
  · exact (hall d.value).1
  · exact (hall d.value).2

theorem HexDigit.hexValue?_char (d : HexDigit) : hexValue? d.char = some d.value.val := by
  have hall : ∀ n : Fin 16, hexValue? (Nat.digitChar n) = some n.val ∧
      hexValue? (Nat.digitChar n).toUpper = some n.val := by decide
  rcases d.spelled with h | h <;> rw [h]
  · exact (hall d.value).1
  · exact (hall d.value).2

theorem exists_hexDigit {c : Char} (h : isHexDigit c = true) : ∃ d : HexDigit, d.char = c := by
  have hall : ∀ n < 128, isHexDigit (Char.ofNat n) = true →
      ∃ v : Fin 16, Char.ofNat n = Nat.digitChar v ∨ Char.ofNat n = (Nat.digitChar v).toUpper := by
    decide +kernel
  have hlow : c.toNat < 128 := by
    have hle {d : Char} (hd : c ≤ d) : c.toNat ≤ d.toNat := UInt32.le_iff_toNat_le.mp hd
    simp only [isHexDigit, Bool.or_eq_true, Bool.and_eq_true, decide_eq_true_eq] at h
    rcases h with (⟨-, h⟩ | ⟨-, h⟩) | ⟨-, h⟩ <;> exact Nat.lt_of_le_of_lt (hle h) (by decide)
  have hc := hall c.toNat hlow
  rw [Char.ofNat_toNat] at hc
  obtain ⟨v, hv⟩ := hc h
  exact ⟨⟨c, v, hv⟩, rfl⟩

/-! ## Scanning -/

section

variable {bytes count n : Nat} {cs : List Char}

/-- The scanner passes over an item. -/
theorem stringLength_item (x : Item) (bytes count : Nat) (cs : List Char) :
    ∃ bytes', stringLength bytes count (x.chars ++ cs) =
      stringLength bytes' (count + x.chars.length) cs := by
  cases x with
  | plain c h =>
    simp only [List.mem_cons, List.not_mem_nil, or_false, not_or] at h
    obtain ⟨hquote, hslash, hfeed, hreturn⟩ := h
    exact ⟨_, stringLength_plain hquote hslash (by simp [Source.isLineEnd, hfeed, hreturn]) ..⟩
  | short e c h => exact ⟨_, stringLength_short (isShortEscape_of_mem h).1 ..⟩
  | code d₁ d₂ d₃ d₄ =>
    exact ⟨_, stringLength_hex (by simp [HexDigit.isHexDigit_char]) ..⟩

theorem stringLength_body (items : List Item) (bytes count : Nat) (rest : List Char) :
    stringLength bytes count (body items ++ '\x22' :: rest) =
      .ok (count + (body items).length + 2) := by
  induction items generalizing bytes count with
  | nil => exact stringLength_quote bytes count rest
  | cons x xs ih =>
    obtain ⟨bytes', hx⟩ := stringLength_item x bytes count (body xs ++ '\x22' :: rest)
    rw [body_cons, List.append_assoc, hx, ih, List.length_append, Nat.add_assoc count]

/-- What the scanner passes over is made up of items. -/
theorem exists_items_of_stringLength (h : stringLength bytes count cs = .ok n) :
    ∃ items rest, cs = body items ++ '\x22' :: rest := by
  have longer (x : Item) {cs : List Char} (hcs : ∃ items rest, cs = body items ++ '\x22' :: rest) :
      ∃ items rest, x.chars ++ cs = body items ++ '\x22' :: rest := by
    obtain ⟨items, rest, rfl⟩ := hcs
    exact ⟨x :: items, rest, (List.append_assoc ..).symm⟩
  fun_induction stringLength bytes count cs with
  | case2 bytes count cs => exact ⟨[], cs, rfl⟩
  | case5 bytes count e es hshort _ _ ih =>
    obtain ⟨c, hc⟩ := mem_of_isShortEscape hshort
    exact longer (.short e c hc) (ih h)
  | case6 bytes count h₁ h₂ h₃ h₄ rest hhex _ _ _ ih =>
    simp only [Bool.and_eq_true] at hhex
    obtain ⟨d₁, rfl⟩ := exists_hexDigit hhex.1.1.1
    obtain ⟨d₂, rfl⟩ := exists_hexDigit hhex.1.1.2
    obtain ⟨d₃, rfl⟩ := exists_hexDigit hhex.1.2
    obtain ⟨d₄, rfl⟩ := exists_hexDigit hhex.2
    exact longer (.code d₁ d₂ d₃ d₄) (ih h)
  | case10 bytes count c cs hquote hline hslash ih =>
    have hplain : c ∉ ['\x22', '\x5c', '\n', '\r'] := by
      simp only [Source.isLineEnd, Bool.or_eq_true, beq_iff_eq, not_or] at hline
      simp [hquote, hslash, hline]
    exact longer (.plain c hplain) (ih h)
  | case1 | case3 | case4 | case7 | case8 | case9 => cases h

/-- The scanner finds the end of a literal exactly where the grammar has one. -/
theorem stringLength_eq_ok_iff :
    stringLength bytes count cs = .ok n ↔
      ∃ items rest, cs = body items ++ '\x22' :: rest ∧ n = count + (body items).length + 2 := by
  constructor
  · intro h
    obtain ⟨items, rest, rfl⟩ := exists_items_of_stringLength h
    rw [stringLength_body] at h
    exact ⟨items, rest, rfl, (Except.ok.inj h).symm⟩
  · rintro ⟨items, rest, rfl, rfl⟩
    exact stringLength_body items bytes count rest

end

/-! ## Decoding -/

/-- As `decodeBody`, but without a result where that falls back on a replacement: after a backslash
    that nothing follows, that no escape starts with, or whose `u` no four hexadecimal digits
    follow. -/
def strictBody? : List Char → Option (List Char)
  | [] => some []
  | c :: cs =>
    if c = '\x5c' then
      match cs with
      | [] => none
      | e :: es =>
        if e = 'u' then
          match es with
          | h₁ :: h₂ :: h₃ :: h₄ :: rest =>
            if (hexNumber? [h₁, h₂, h₃, h₄]).isSome then
              (strictBody? rest).map (charOfDigits [h₁, h₂, h₃, h₄] :: ·)
            else none
          | _ => none
        else if isShortEscape e then (strictBody? es).map (charOfEscape e :: ·)
        else none
    else (strictBody? cs).map (c :: ·)

/-- As `decode`, but without a result where that falls back on a replacement, or where the quotes
    are missing. -/
def strict? (lexeme : List Char) : Option (List Char) :=
  match lexeme with
  | [] => none
  | c :: cs =>
    if c = '\x22' ∧ cs.getLast? = some '\x22' then strictBody? cs.dropLast else none

/-- Where nothing is replaced, both decoders agree. -/
theorem decode_of_strict? {lexeme text : List Char} (h : strict? lexeme = some text) :
    decode lexeme = text := by
  have hbody {cs text : List Char} (h : strictBody? cs = some text) : decodeBody cs = text := by
    fun_induction strictBody? cs generalizing text with
    | case1 => rw [decodeBody]; exact Option.some.inj h
    | case2 | case4 | case5 | case7 => cases h
    | case3 h₁ h₂ h₃ h₄ rest _ ih =>
      obtain ⟨text, hrest, rfl⟩ := Option.map_eq_some_iff.mp h
      rw [decodeBody]
      simp [ih hrest]
    | case6 e es hu _ ih =>
      obtain ⟨text, hrest, rfl⟩ := Option.map_eq_some_iff.mp h
      rw [decodeBody_short hu, ih hrest]
    | case8 c cs hslash ih =>
      obtain ⟨text, hrest, rfl⟩ := Option.map_eq_some_iff.mp h
      rw [decodeBody_plain hslash, ih hrest]
  cases lexeme with
  | nil => cases h
  | cons c cs =>
    simp only [strict?] at h
    split at h
    · next hquotes => rw [decode, inside, if_pos hquotes, hbody h]
    · cases h

theorem HexDigit.char_ne_plus (d : HexDigit) : d.char ≠ '+' := by
  intro h
  have hdigit := d.isHexDigit_char
  rw [h] at hdigit
  cases hdigit

theorem hexNumber?_digits (d₁ d₂ d₃ d₄ : HexDigit) :
    hexNumber? [d₁.char, d₂.char, d₃.char, d₄.char] = some (codeOf d₁ d₂ d₃ d₄) := by
  simp [hexNumber?, HexDigit.hexValue?_char, codeOf]

theorem charOfDigits_digits (d₁ d₂ d₃ d₄ : HexDigit) :
    charOfDigits [d₁.char, d₂.char, d₃.char, d₄.char] = (Item.code d₁ d₂ d₃ d₄).value := by
  have hpoint : codePoint? [d₁.char, d₂.char, d₃.char, d₄.char] =
      hexNumber? [d₁.char, d₂.char, d₃.char, d₄.char] := by
    unfold codePoint?
    split
    · next heq => exact absurd (List.cons.inj heq).1 d₁.char_ne_plus
    · rfl
  rw [charOfDigits, hpoint, hexNumber?_digits]
  have hvalid : (codeOf d₁ d₂ d₃ d₄).isValidChar ↔
      ¬ (0xd800 ≤ codeOf d₁ d₂ d₃ d₄ ∧ codeOf d₁ d₂ d₃ d₄ ≤ 0xdfff) := by
    unfold Nat.isValidChar codeOf
    omega
  simp only [hvalid, ite_not, Item.value, charOfCode]

/-- An item is decoded on its own. -/
theorem strictBody?_item (x : Item) (cs : List Char) :
    strictBody? (x.chars ++ cs) = (strictBody? cs).map (x.value :: ·) := by
  cases x with
  | plain c h =>
    have hslash : c ≠ '\x5c' := fun heq => h (by simp [heq])
    rw [Item.chars, List.singleton_append, strictBody?.eq_def]
    simp [hslash, Item.value]
  | short e c h =>
    obtain ⟨hshort, hu, rfl⟩ := isShortEscape_of_mem h
    rw [Item.chars, List.cons_append, List.singleton_append, strictBody?.eq_def]
    simp [hshort, hu, Item.value]
  | code d₁ d₂ d₃ d₄ =>
    rw [← charOfDigits_digits]
    simp only [Item.chars, List.cons_append, List.nil_append]
    rw [strictBody?.eq_def]
    simp [hexNumber?_digits]

/-- Nothing in a literal is malformed. -/
theorem strict?_spell (items : List Item) :
    strict? (spell items) = some (items.map Item.value) := by
  have hbody : strictBody? (body items) = some (items.map Item.value) := by
    induction items with
    | nil => rfl
    | cons x xs ih => rw [body_cons, strictBody?_item, ih, List.map_cons, Option.map_some]
  simp [strict?, spell, hbody]

/-- A literal stands for the characters of its items. -/
theorem decode_spell (items : List Item) : decode (spell items) = items.map Item.value :=
  decode_of_strict? (strict?_spell items)

/-! ## Writing -/

/-- A text is written with one item for each of its characters. -/
theorem exists_spell_eq_encode (text : List Char) :
    ∃ items, spell items = encode text ∧ items.map Item.value = text := by
  have hitem (c : Char) : ∃ x : Item, x.chars = escape c ∧ x.value = c := by
    rcases escape_cases c with ⟨e, hesc, hshort, -, hchar⟩ | ⟨hesc, hquote, hslash, hline⟩
    · obtain ⟨d, hd⟩ := mem_of_isShortEscape hshort
      have hvalue := (isShortEscape_of_mem hd).2.2
      exact ⟨.short e d hd, hesc.symm, hvalue.symm.trans hchar⟩
    · have hplain : c ∉ ['\x22', '\x5c', '\n', '\r'] := by
        simp only [Source.isLineEnd, Bool.or_eq_false_iff, beq_eq_false_iff_ne] at hline
        simp [hquote, hslash, hline]
      exact ⟨.plain c hplain, hesc.symm, rfl⟩
  have hbody : ∃ items, body items = text.flatMap escape ∧ items.map Item.value = text := by
    induction text with
    | nil => exact ⟨[], rfl, rfl⟩
    | cons c cs ih =>
      obtain ⟨x, hx, hc⟩ := hitem c
      obtain ⟨items, hitems, hcs⟩ := ih
      exact ⟨x :: items, by rw [body_cons, hx, hitems, List.flatMap_cons],
        by rw [List.map_cons, hc, hcs]⟩
  obtain ⟨items, hitems, hvalue⟩ := hbody
  exact ⟨items, by rw [spell, encode, hitems], hvalue⟩

/-- No literal is a proper part at the front of another one. -/
theorem spell_unique {xs ys : List Item} {text : List Char} (hxs : spell xs <+: text)
    (hys : spell ys <+: text) : spell xs = spell ys := by
  have hlength {zs : List Item} (hzs : spell zs <+: text) :
      stringLength 0 0 text.tail = .ok (spell zs).length := by
    obtain ⟨rest, rfl⟩ := hzs
    rw [spell, List.cons_append, List.append_assoc, List.tail_cons, List.singleton_append,
      stringLength_body]
    simp
  have heq := Except.ok.inj ((hlength hxs).symm.trans (hlength hys))
  exact (List.prefix_of_prefix_length_le hxs hys (Nat.le_of_eq heq)).eq_of_length heq

end Literal

/-! ## Reading -/

namespace Reader

open Literal (Item body spell)

variable {r r' : Reader} {cs rest : List Char} {items : List Item} {t : Token}

theorem scan_quote (firstColumn : Bool) (cs : List Char) :
    scan firstColumn ('\x22' :: cs) = (stringLength 0 0 cs).map fun n => (.str, n) := rfl

/-- A literal in front of the text is read as one token, whatever follows it. -/
theorem next_of_spell (h : r.ahead = spell items ++ rest) :
    ∃ t r', r.next = (.ok t, r') ∧ t.kind = .str ∧ t.lexeme = spell items ∧ r'.ahead = rest := by
  have hscan : scan (r.commit.position.col == 1) (spell items ++ rest) =
      .ok (.str, (spell items).length) := by
    rw [spell, List.cons_append, List.append_assoc, List.singleton_append, scan_quote,
      Literal.stringLength_body]
    simp [Except.map]
  have hstep : r.step = (.ok ⟨.str, spell items, r.commit.offset,
      .ofText r.commit.position (spell items)⟩,
      { r.commit with held := spell items, ahead := rest }) := by
    rw [← commit_ahead] at h
    simp only [step, h, hscan, List.take_left, List.drop_left]
  exact ⟨_, _, next_of_step_ok hstep (by simp [Kind.isTrivia]), rfl, rfl, rfl⟩

/-- Before a quote nothing else is read than a literal. -/
theorem exists_spell_of_next (h : r.ahead = '\x22' :: cs) (hnext : r.next = (.ok t, r')) :
    ∃ items rest, r.ahead = spell items ++ rest := by
  cases hlength : stringLength 0 0 cs with
  | ok n =>
    obtain ⟨items, rest, rfl, -⟩ := Literal.stringLength_eq_ok_iff.mp hlength
    exact ⟨items, rest, by simp [h, spell]⟩
  | error m =>
    have hstep : ∃ f r', r.step = (.error f, r') := by
      rw [← commit_ahead] at h
      simp only [step, h, scan_quote, hlength, Except.map]
      exact ⟨_, _, rfl⟩
    obtain ⟨f, r', hstep⟩ := hstep
    rw [next_of_step_error hstep] at hnext
    cases hnext

/-- Before a text that begins with a quote, exactly the one literal that the text begins with is
    read as a token, and without such a literal nothing is. A literal decodes to the characters of
    its items, none of which is malformed. So a text that is written as a literal is read as one
    token, whatever follows it, and decodes to itself. -/
theorem next_reads_literal (h : r.ahead = '\x22' :: cs) :
    (∀ lexeme, (∃ t r', r.next = (.ok t, r') ∧ t.kind = .str ∧ t.lexeme = lexeme) ↔
      lexeme <+: r.ahead ∧ ∃ items, lexeme = spell items) ∧
    (∀ t r', r.next = (.ok t, r') → t.kind = .str) ∧
    (∀ xs ys, spell xs <+: r.ahead → spell ys <+: r.ahead → spell xs = spell ys) ∧
    (∀ items, Literal.strict? (spell items) = some (items.map Item.value) ∧
      Literal.decode (spell items) = items.map Item.value) ∧
    ∀ text rest, r.ahead = Literal.encode text ++ rest →
      ∃ t r', r.next = (.ok t, r') ∧ t.kind = .str ∧ t.lexeme = Literal.encode text ∧
        r'.ahead = rest ∧ Literal.decode t.lexeme = text := by
  have htoken (t : Token) (r' : Reader) (hnext : r.next = (.ok t, r')) :
      t.kind = .str ∧ t.lexeme <+: r.ahead ∧ ∃ items, t.lexeme = spell items := by
    obtain ⟨items, rest, hahead⟩ := exists_spell_of_next h hnext
    obtain ⟨u, r'', hread, hkind, hlexeme, -⟩ := next_of_spell hahead
    cases hnext.symm.trans hread
    exact ⟨hkind, ⟨rest, by rw [hlexeme, hahead]⟩, items, hlexeme⟩
  refine ⟨fun lexeme => ⟨?_, ?_⟩, fun t r' hnext => (htoken t r' hnext).1,
    fun _ _ => Literal.spell_unique,
    fun items => ⟨Literal.strict?_spell items, Literal.decode_spell items⟩, ?_⟩
  · rintro ⟨t, r', hnext, -, rfl⟩
    exact (htoken t r' hnext).2
  · rintro ⟨⟨rest, hahead⟩, items, rfl⟩
    obtain ⟨t, r', hnext, hkind, hlexeme, -⟩ := next_of_spell hahead.symm
    exact ⟨t, r', hnext, hkind, hlexeme⟩
  · intro text rest hahead
    obtain ⟨items, hspell, hvalue⟩ := Literal.exists_spell_eq_encode text
    obtain ⟨t, r', hnext, hkind, hlexeme, hrest⟩ := next_of_spell (hspell.symm ▸ hahead)
    refine ⟨t, r', hnext, hkind, hlexeme.trans hspell, hrest, ?_⟩
    rw [hlexeme, Literal.decode_spell, hvalue]

/-- `"\uD800\"é"""`: the surrogate gives U+FFFD, the escaped quote does not end the literal, and the
    quotes after it are not read. -/
theorem next_reads_literal_surrogate :
    ∃ t r', (ofText ("\"\\uD800\\\"é\"\"\"".toList) false).next = (.ok t, r') ∧ t.kind = .str ∧
      t.text = "\"\\uD800\\\"é\"" ∧ Literal.decode t.lexeme = ['\ufffd', '\x22', 'é'] := by
  let zero : Literal.HexDigit := ⟨'0', 0, .inl rfl⟩
  let items : List Item := [.code ⟨'D', 13, .inr (by decide)⟩ ⟨'8', 8, .inl rfl⟩ zero zero,
    .short '\x22' '\x22' (by decide), .plain 'é' (by decide)]
  have htext : "\"\\uD800\\\"é\"\"\"".toList = spell items ++ ['\x22', '\x22'] := by decide
  have hreads := next_reads_literal (r := ofText "\"\\uD800\\\"é\"\"\"".toList false) htext
  obtain ⟨t, r', hnext, hkind, hlexeme⟩ :=
    (hreads.1 (spell items)).mpr ⟨⟨_, htext.symm⟩, items, rfl⟩
  refine ⟨t, r', hnext, hkind, ?_, ?_⟩
  · rw [Token.text, hlexeme]
    decide
  · rw [hlexeme, (hreads.2.2.2.1 items).2]
    decide

end Reader

end TierScript
