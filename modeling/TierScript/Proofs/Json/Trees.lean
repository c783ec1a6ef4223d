import Mathlib.Data.List.DropRight
import TierScript.Decimal.Layout
import TierScript.Json.Decode
import TierScript.Json.Write

/-!
# Reading JSON that was written

The reader takes a value from the front of a text and hands on what is behind it. Only a numeral has
no end of its own: it goes on for as long as the text behind it lets it. So a text denotes a tree if
the reader finds that tree in front of anything that does not go on with a numeral.

* `Json.readString?_written`, `Json.decodePieces?_map`: a string that was written is read as pieces,
  and these decode to its text.
* `Json.readNumeral?_ofInt`, `Json.decode?_numeral`: the same for integers.
* `Json.Denotes`, `Json.Lists`, `Json.Pairs`: what a text is read as, with a lemma for each way of
  putting texts together.
-/

namespace TierScript.Json

variable {cs ds rest : List Char} {c : Char}

/-! ## Strings -/

/-- What the reader makes of a character that was written: a control without a short escape is still
    a number. -/
def piece (c : Char) : Piece :=
  if c.toNat < 0x20 ∧ c ∉ ['\x08', '\x0c', '\n', '\r', '\t'] then .unit c.toNat else .char c

theorem padded_hex : ∀ n < 0x20,
    List.replicate (4 - (Text.hex n).length) '0' ++ Text.hex n =
      ['0', '0', (n / 16).digitChar, (n % 16).digitChar] := by
  decide

theorem hexNumber?_padded : ∀ n < 0x20,
    Literal.hexNumber? ['0', '0', (n / 16).digitChar, (n % 16).digitChar] = some n := by
  decide

theorem readString?_quote (rest : List Char) : readString? ('\x22' :: rest) = some ([], rest) := by
  rw [readString?.eq_def]
  rfl

theorem readString?_plain (rest : List Char) (hquote : c ≠ '\x22') (hslash : c ≠ '\x5c')
    (hcontrol : ¬c.toNat < 0x20) :
    readString? (c :: rest) =
      (readString? rest).map fun read => (.char c :: read.1, read.2) := by
  rw [readString?.eq_def]
  simp only [hquote, hcontrol, hslash, if_false]
  cases readString? rest <;> rfl

theorem readString?_short {e x : Char} (rest : List Char) (hu : e ≠ 'u') (hx : escape? e = some x) :
    readString? ('\x5c' :: e :: rest) =
      (readString? rest).map fun read => (.char x :: read.1, read.2) := by
  rw [readString?.eq_def]
  simp only [Char.reduceEq, Char.reduceToNat, Nat.reduceLT, if_false, if_true, hu, hx]
  cases readString? rest <;> rfl

theorem readString?_number {h₁ h₂ h₃ h₄ : Char} {n : Nat} (rest : List Char)
    (hn : Literal.hexNumber? [h₁, h₂, h₃, h₄] = some n) :
    readString? ('\x5c' :: 'u' :: h₁ :: h₂ :: h₃ :: h₄ :: rest) =
      (readString? rest).map fun read => (.unit n :: read.1, read.2) := by
  rw [readString?.eq_def]
  simp only [Char.reduceEq, Char.reduceToNat, Nat.reduceLT, if_false, if_true, hn]
  cases readString? rest <;> rfl

theorem readString?_escapeChar (c : Char) (rest : List Char) :
    readString? (escapeChar c ++ rest) =
      (readString? rest).map fun read => (piece c :: read.1, read.2) := by
  by_cases hshort : c ∈ ['\x22', '\x5c', '\x08', '\x0c', '\n', '\r', '\t']
  · simp only [List.mem_cons, List.not_mem_nil, or_false] at hshort
    rcases hshort with rfl | rfl | rfl | rfl | rfl | rfl | rfl <;>
      exact readString?_short rest (by decide) rfl
  · simp only [List.mem_cons, List.not_mem_nil, or_false, not_or] at hshort
    obtain ⟨hquote, hslash, hb, hf, hn, hr, ht⟩ := hshort
    by_cases hc : c.toNat < 0x20
    · have hpiece : piece c = .unit c.toNat := by simp [piece, hc, hb, hf, hn, hr, ht]
      rw [hpiece, ← readString?_number rest (hexNumber?_padded _ hc)]
      simp [escapeChar, hquote, hslash, hb, hf, hn, hr, ht, hc, padded_hex _ hc]
    · have hpiece : piece c = .char c := by simp [piece, hc]
      rw [hpiece, ← readString?_plain rest hquote hslash hc]
      simp [escapeChar, hquote, hslash, hb, hf, hn, hr, ht, hc]

theorem readString?_written (cs rest : List Char) :
    readString? (cs.flatMap escapeChar ++ '\x22' :: rest) = some (cs.map piece, rest) := by
  induction cs with
  | nil => exact readString?_quote rest
  | cons c cs ih =>
    rw [List.flatMap_cons, List.append_assoc, readString?_escapeChar, ih]
    rfl

theorem decodePieces?_map (cs : List Char) : decodePieces? (cs.map piece) = some cs := by
  induction cs with
  | nil => rfl
  | cons c cs ih =>
    rw [List.map_cons, piece]
    split
    next hunit =>
      have hlow : ¬(0xd800 ≤ c.toNat ∧ c.toNat < 0xdc00) := by omega
      have hhigh : ¬(0xdc00 ≤ c.toNat ∧ c.toNat < 0xe000) := by omega
      rw [decodePieces?.eq_def]
      simp only [hlow, hhigh, if_false, ih, Option.map_some, Char.ofNat_toNat]
    next => rw [decodePieces?, ih, Option.map_some]

/-! ## Numerals -/

/-- What is behind a numeral, if it does not go on with it. -/
def Stops (rest : List Char) : Prop :=
  ∀ c ∈ rest.head?, c.isDigit = false ∧ c ≠ '.' ∧ c ≠ 'e' ∧ c ≠ 'E'

theorem Stops.nil : Stops [] := nofun

theorem Stops.cons (hc : c.isDigit = false ∧ c ≠ '.' ∧ c ≠ 'e' ∧ c ≠ 'E') (cs : List Char) :
    Stops (c :: cs) := by
  intro x hx
  obtain rfl : c = x := by simpa using hx
  exact hc

/-- The numeral of an integer. -/
def numeral (n : Int) : Numeral :=
  { negative := decide (n < 0), whole := Nat.toDigits 10 n.natAbs }

theorem isDigit_of_mem_toDigits {n : Nat} (hc : c ∈ Nat.toDigits 10 n) : c.isDigit = true :=
  Nat.isDigit_of_mem_toDigits (by decide) (by decide) hc

/-- Zero alone starts with a zero. -/
theorem toDigits_of_head? (n : Nat) (hzero : (Nat.toDigits 10 n).head? = some '0') :
    Nat.toDigits 10 n = ['0'] := by
  induction n using Nat.strongRecOn with
  | ind n ih =>
    by_cases hn : n < 10
    · rw [Nat.toDigits_of_lt_base hn] at hzero ⊢
      simpa using hzero
    · have hsplit := Nat.toDigits_of_base_le (b := 10) (by decide) (Nat.le_of_not_lt hn)
      rw [hsplit, List.head?_append_of_ne_nil _ Nat.toDigits_ne_nil] at hzero
      have hfront := ih (n / 10) (by omega) hzero
      have hvalue : Nat.ofDigitChars 10 (Nat.toDigits 10 (n / 10)) 0 = n / 10 :=
        Nat.ofDigitChars_toDigits (by decide) (by decide)
      rw [hfront] at hvalue
      have hten : n / 10 = 0 := hvalue.symm
      omega

theorem readDigits?_toDigits (n : Nat) (hrest : Stops rest) :
    readDigits? (Nat.toDigits 10 n ++ rest) = some (Nat.toDigits 10 n, rest) := by
  have hall : ∀ c ∈ Nat.toDigits 10 n, c.isDigit = true := fun c hc => isDigit_of_mem_toDigits hc
  have hends : rest.takeWhile Char.isDigit = [] ∧ rest.dropWhile Char.isDigit = rest := by
    cases rest with
    | nil => exact ⟨rfl, rfl⟩
    | cons c cs => simp [(hrest c rfl).1]
  rw [readDigits?, List.takeWhile_append_of_pos hall, List.dropWhile_append_of_pos hall, hends.1,
    hends.2, List.append_nil]
  cases hdigits : Nat.toDigits 10 n with
  | nil => exact absurd hdigits Nat.toDigits_ne_nil
  | cons d ds => rfl

theorem readWhole?_toDigits (n : Nat) (hrest : Stops rest) :
    readWhole? (Nat.toDigits 10 n ++ rest) = some (Nat.toDigits 10 n, rest) := by
  rw [readWhole?, readDigits?_toDigits n hrest, Option.bind_some]
  show (if (Nat.toDigits 10 n).head? = some '0' ∧ Nat.toDigits 10 n ≠ ['0'] then none
    else some (Nat.toDigits 10 n, rest)) = _
  rw [if_neg]
  rintro ⟨hzero, hlonger⟩
  exact hlonger (toDigits_of_head? n hzero)

theorem Stops.readFraction? (hrest : Stops rest) : readFraction? rest = some (none, rest) := by
  unfold Json.readFraction?
  split
  next cs => exact absurd rfl (hrest '.' rfl).2.1
  next => rfl

theorem Stops.readExponent? (hrest : Stops rest) : readExponent? rest = some (none, rest) := by
  cases rest with
  | nil => rfl
  | cons c cs =>
    obtain ⟨-, -, hlower, hupper⟩ := hrest c rfl
    simp [Json.readExponent?, hlower, hupper]

theorem readNumeral?_ofInt (n : Int) (hrest : Stops rest) :
    readNumeral? (Decimal.ofInt n ++ rest) = some (numeral n, rest) := by
  have hread : ∀ negative,
      readNumeral? (Decimal.signed negative (Nat.toDigits 10 n.natAbs) ++ rest) =
        some (⟨negative, Nat.toDigits 10 n.natAbs, none, none⟩, rest) := by
    intro negative
    cases negative with
    | true =>
      show readNumeral? ('-' :: (Nat.toDigits 10 n.natAbs ++ rest)) = _
      simp [readNumeral?, readWhole?_toDigits _ hrest, hrest.readFraction?, hrest.readExponent?]
    | false =>
      cases hdigits : Nat.toDigits 10 n.natAbs with
      | nil => exact absurd hdigits Nat.toDigits_ne_nil
      | cons d ds =>
        have hd : d.isDigit = true := isDigit_of_mem_toDigits (hdigits ▸ List.mem_cons_self)
        have hminus : d ≠ '-' := fun h => by simp [h] at hd
        have hwhole := readWhole?_toDigits n.natAbs hrest
        rw [hdigits, List.cons_append] at hwhole
        simp [Decimal.signed, readNumeral?, hminus, hwhole, hrest.readFraction?,
          hrest.readExponent?]
  exact hread _

/-- An integer of 64 bits, signed or not, is read as that integer. -/
theorem decode?_numeral (n : Int) (hleast : -2 ^ 63 ≤ n) (hmost : n ≤ maxNatural) :
    (numeral n).decode? = some (if n < 0 then .negative n else .natural n.natAbs) := by
  have hvalue : Nat.ofDigitChars 10 (Nat.toDigits 10 n.natAbs) 0 = n.natAbs :=
    Nat.ofDigitChars_toDigits (by decide) (by decide)
  have hfits : n.natAbs ≤ maxNatural := by
    simp only [maxNatural] at hmost ⊢
    omega
  by_cases hn : n < 0
  · have hrange : ¬(n.natAbs = 0 ∨ 2 ^ 63 < n.natAbs) := by omega
    have habs : -(n.natAbs : Int) = n := by omega
    simp only [Numeral.decode?, numeral, hvalue, hfits, hn, hrange, habs, Option.isNone_none,
      decide_true, Bool.and_self, Bool.not_true, if_true, if_false, Bool.false_eq_true]
  · simp only [Numeral.decode?, numeral, hvalue, hfits, hn, Option.isNone_none, decide_true,
      decide_false, Bool.and_self, Bool.not_false, if_true, if_false]

/-! ## Texts that denote trees -/

/-- The text is read as the tree. -/
def Denotes (cs : List Char) (r : Raw) : Prop :=
  ∀ fuel rest, cs.length < fuel → Stops rest → readValue? fuel (cs ++ rest) = some (r, rest)

/-- The text is read as the items of an array with its closing bracket. -/
def Lists (cs : List Char) (items : List Raw) : Prop :=
  ∀ fuel rest, cs.length < fuel → readItems? fuel (cs ++ rest) = some (items, rest)

/-- The text is read as the members of an object with its closing brace. -/
def Pairs (cs : List Char) (members : List (List Piece × Raw)) : Prop :=
  ∀ fuel rest, cs.length < fuel → readMembers? fuel (cs ++ rest) = some (members, rest)

variable {fuel : Nat} {r : Raw} {items : List Raw} {members : List (List Piece × Raw)}

theorem skipSpace_cons (hc : isSpace c = false) (cs : List Char) : skipSpace (c :: cs) = c :: cs :=
  List.dropWhile_cons_of_neg (by simp [hc])

theorem skipSpace_append (hblank : ∀ c ∈ ds, isSpace c = true) (cs : List Char) :
    skipSpace (ds ++ cs) = skipSpace cs :=
  List.dropWhile_append_of_pos hblank

theorem skipSpace_skipSpace (cs : List Char) : skipSpace (skipSpace cs) = skipSpace cs :=
  List.dropWhile_idempotent isSpace cs

/-- The readers see nothing of the white space in front of them. -/
theorem readValue?_congr (h : skipSpace cs = skipSpace ds) (fuel : Nat) :
    readValue? fuel cs = readValue? fuel ds := by
  cases fuel with
  | zero => simp only [readValue?]
  | succ fuel => simp only [readValue?, h]

theorem readItems?_congr (h : skipSpace cs = skipSpace ds) (fuel : Nat) :
    readItems? fuel cs = readItems? fuel ds := by
  cases fuel with
  | zero => simp only [readItems?]
  | succ fuel => simp only [readItems?, readValue?_congr h]

theorem readMembers?_congr (h : skipSpace cs = skipSpace ds) (fuel : Nat) :
    readMembers? fuel cs = readMembers? fuel ds := by
  cases fuel with
  | zero => simp only [readMembers?]
  | succ fuel => simp only [readMembers?, h]

theorem readItems?_close (fuel : Nat) (cs : List Char) : readItems? fuel (']' :: cs) = none := by
  cases fuel with
  | zero => rfl
  | succ fuel =>
    have hitem : readValue? fuel (']' :: cs) = none := by
      cases fuel with
      | zero => rfl
      | succ fuel => rfl
    simp only [readItems?, hitem]

theorem readMembers?_close (fuel : Nat) (cs : List Char) :
    readMembers? fuel ('\x7d' :: cs) = none := by
  cases fuel with
  | zero => rfl
  | succ fuel => rfl

theorem readValue?_numeral (hc : c = '-' ∨ c.isDigit = true) (fuel : Nat) (cs : List Char) :
    readValue? (fuel + 1) (c :: cs) =
      (readNumeral? (c :: cs)).map fun read => (.number read.1, read.2) := by
  have hother : ∀ x, x ≠ '-' ∧ x.isDigit = false → c ≠ x := by
    rintro x ⟨hminus, hdigit⟩ rfl
    obtain h | h := hc
    · exact hminus h
    · exact absurd h (by simp [hdigit])
  have hspace : isSpace c = false := by
    simp only [isSpace, Bool.or_eq_false_iff, beq_eq_false_iff_ne]
    exact ⟨⟨⟨hother ' ' (by decide), hother '\n' (by decide)⟩, hother '\t' (by decide)⟩,
      hother '\r' (by decide)⟩
  rw [readValue?, skipSpace_cons hspace]
  simp only [hother 'n' (by decide), hother 't' (by decide), hother 'f' (by decide),
    hother '\x22' (by decide), hother '[' (by decide), hother '\x7b' (by decide), if_false]

namespace Denotes

theorem space (hblank : ∀ c ∈ ds, isSpace c = true) (h : Denotes cs r) : Denotes (ds ++ cs) r := by
  intro fuel rest hfuel hrest
  rw [List.length_append] at hfuel
  rw [List.append_assoc, readValue?_congr (skipSpace_append hblank _)]
  exact h fuel rest (by omega) hrest

theorem null : Denotes "null".toList .null := by
  intro fuel rest hfuel _
  cases fuel with
  | zero => omega
  | succ fuel => rfl

theorem bool (b : Bool) : Denotes (if b then "true" else "false").toList (.bool b) := by
  intro fuel rest hfuel _
  cases fuel with
  | zero => omega
  | succ fuel => cases b <;> rfl

theorem string (cs : List Char) : Denotes (writeString cs) (.string (cs.map piece)) := by
  intro fuel rest hfuel _
  cases fuel with
  | zero => omega
  | succ fuel =>
    have hread := readString?_written cs rest
    simp only [writeString, List.cons_append, List.append_assoc, List.nil_append]
    rw [readValue?, skipSpace_cons (by decide)]
    simp only [Char.reduceEq, if_false, if_true, hread, Option.map_some]

theorem number (n : Int) : Denotes (Decimal.ofInt n) (.number (numeral n)) := by
  intro fuel rest hfuel hrest
  have hread := readNumeral?_ofInt n hrest
  have hfirst : ∃ c cs, Decimal.ofInt n = c :: cs ∧ (c = '-' ∨ c.isDigit = true) := by
    rw [Decimal.ofInt, Decimal.signed]
    split
    · exact ⟨_, _, rfl, .inl rfl⟩
    · obtain ⟨d, ds, hdigits⟩ := List.exists_cons_of_ne_nil (Nat.toDigits_ne_nil (b := 10)
        (n := n.natAbs))
      exact ⟨d, ds, hdigits, .inr (isDigit_of_mem_toDigits (hdigits ▸ List.mem_cons_self))⟩
  obtain ⟨c, cs, htext, hc⟩ := hfirst
  rw [htext, List.cons_append] at hread ⊢
  cases fuel with
  | zero => omega
  | succ fuel => rw [readValue?_numeral hc, hread, Option.map_some]

theorem empty : Denotes ['[', ']'] (.array []) := by
  intro fuel rest hfuel _
  cases fuel with
  | zero => omega
  | succ fuel => rfl

theorem array (h : Lists cs items) : Denotes ('[' :: cs) (.array items) := by
  intro fuel rest hfuel _
  cases fuel with
  | zero => omega
  | succ fuel =>
    have hitems : readItems? fuel (skipSpace (cs ++ rest)) = some (items, rest) := by
      rw [readItems?_congr (skipSpace_skipSpace _)]
      exact h fuel rest (Nat.lt_of_succ_lt_succ hfuel)
    rw [List.cons_append, readValue?, skipSpace_cons (by decide)]
    simp only [Char.reduceEq, if_false, if_true]
    split
    next hclose =>
      rw [hclose, readItems?_close] at hitems
      exact absurd hitems nofun
    next => rw [hitems, Option.map_some]

theorem object (h : Pairs cs members) : Denotes ('\x7b' :: cs) (.object members) := by
  intro fuel rest hfuel _
  cases fuel with
  | zero => omega
  | succ fuel =>
    have hmembers : readMembers? fuel (skipSpace (cs ++ rest)) = some (members, rest) := by
      rw [readMembers?_congr (skipSpace_skipSpace _)]
      exact h fuel rest (Nat.lt_of_succ_lt_succ hfuel)
    rw [List.cons_append, readValue?, skipSpace_cons (by decide)]
    simp only [Char.reduceEq, if_false, if_true]
    split
    next hclose =>
      rw [hclose, readMembers?_close] at hmembers
      exact absurd hmembers nofun
    next => rw [hmembers, Option.map_some]

/-- A whole text is read as the tree that it denotes. -/
theorem read? (h : Denotes cs r) : Raw.read? cs = some r := by
  have hread := h (cs.length + 1) [] (Nat.lt_succ_self _) .nil
  rw [List.append_nil] at hread
  rw [Raw.read?, hread]
  rfl

end Denotes

/-- White space and closing marks do not go on with a numeral. -/
theorem stops_of_punctuation (hc : isSpace c = true ∨ c ∈ [',', ']', '\x7d']) (cs : List Char) :
    Stops (c :: cs) := by
  refine .cons ?_ cs
  simp only [isSpace, Bool.or_eq_true, beq_iff_eq, List.mem_cons, List.not_mem_nil, or_false] at hc
  rcases hc with (((rfl | rfl) | rfl) | rfl) | rfl | rfl | rfl <;> decide

namespace Lists

theorem single (h : Denotes cs r) : Lists (cs ++ [']']) [r] := by
  intro fuel rest hfuel
  rw [List.length_append, List.length_singleton] at hfuel
  cases fuel with
  | zero => omega
  | succ fuel =>
    have hitem := h fuel (']' :: rest) (by omega) (stops_of_punctuation (.inr (by decide)) _)
    rw [List.append_assoc, List.singleton_append, readItems?, hitem]
    rfl

theorem cons (h : Denotes cs r) (hds : Lists ds items) : Lists (cs ++ ',' :: ds) (r :: items) := by
  intro fuel rest hfuel
  rw [List.length_append, List.length_cons] at hfuel
  cases fuel with
  | zero => omega
  | succ fuel =>
    have hitem := h fuel (',' :: (ds ++ rest)) (by omega)
      (stops_of_punctuation (.inr (by decide)) _)
    rw [List.append_assoc, List.cons_append, readItems?, hitem]
    show (readItems? fuel (ds ++ rest)).map _ = _
    rw [hds fuel rest (by omega), Option.map_some]

end Lists

/-- What there is to read once the first member of an object is read. -/
def membersAfter? (fuel : Nat) (first : List Piece × Raw) (rest : List Char) :
    Option (List (List Piece × Raw) × List Char) :=
  match skipSpace rest with
  | '\x7d' :: after => some ([first], after)
  | ',' :: more => (readMembers? fuel more).map fun (members, after) => (first :: members, after)
  | _ => none

namespace Pairs

theorem space (hblank : ∀ c ∈ ds, isSpace c = true) (h : Pairs cs members) :
    Pairs (ds ++ cs) members := by
  intro fuel rest hfuel
  rw [List.length_append] at hfuel
  rw [List.append_assoc, readMembers?_congr (skipSpace_append hblank _)]
  exact h fuel rest (by omega)

/-- A name, a colon and the value are read before the reader asks what comes next. -/
theorem readMembers?_written (key : List Char) (h : Denotes cs r) (hfuel : cs.length < fuel)
    (hrest : Stops rest) :
    readMembers? (fuel + 1) (writeString key ++ ':' :: (cs ++ rest)) =
      membersAfter? fuel (key.map piece, r) rest := by
  have hkey := readString?_written key (':' :: (cs ++ rest))
  simp only [writeString, List.cons_append, List.append_assoc, List.nil_append]
  rw [readMembers?, skipSpace_cons (by decide)]
  simp only [hkey, skipSpace_cons (by decide : isSpace ':' = false), h fuel rest hfuel hrest]
  rfl

theorem single (key : List Char) (h : Denotes cs r) (hblank : ∀ c ∈ ds, isSpace c = true) :
    Pairs (writeString key ++ ':' :: (cs ++ (ds ++ ['\x7d']))) [(key.map piece, r)] := by
  intro fuel rest hfuel
  have hstops : Stops (ds ++ '\x7d' :: rest) := by
    cases ds with
    | nil => exact stops_of_punctuation (.inr (by decide)) rest
    | cons d ds => exact stops_of_punctuation (.inl (hblank d List.mem_cons_self)) _
  simp only [List.length_append, List.length_cons] at hfuel
  cases fuel with
  | zero => omega
  | succ fuel =>
    have hread := readMembers?_written key h (by omega : cs.length < fuel) hstops
    rw [membersAfter?, skipSpace_append hblank, skipSpace_cons (by decide)] at hread
    simpa only [List.append_assoc, List.cons_append, List.nil_append] using hread

theorem cons (key : List Char) (h : Denotes cs r) (hds : Pairs ds members) :
    Pairs (writeString key ++ ':' :: (cs ++ ',' :: ds)) ((key.map piece, r) :: members) := by
  intro fuel rest hfuel
  simp only [List.length_append, List.length_cons] at hfuel
  cases fuel with
  | zero => omega
  | succ fuel =>
    have hread := readMembers?_written key h (by omega : cs.length < fuel)
      (stops_of_punctuation (c := ',') (.inr (by decide)) (ds ++ rest))
    rw [membersAfter?, skipSpace_cons (by decide)] at hread
    simp only [hds fuel rest (by omega), Option.map_some] at hread
    simpa only [List.append_assoc, List.cons_append, List.nil_append] using hread

end Pairs

end TierScript.Json
