import TierScript.Proofs.Program.Completeness
import TierScript.Proofs.Program.Shape
import TierScript.Proofs.Token.Reading

/-!
# The language of the parser

The parser accepts exactly the programs of the grammar. For every text that can be read to its end,
it gives a program if and only if the tokens of the text, trivia apart, spell that program
(`parse_eq_ok_iff_spells`).
-/

namespace TierScript

open Parse

/-- A program is accepted if and only if the tokens that are fed spell it. -/
theorem block_eq_done_iff {us : List Token} {e : Token} {fuel : Nat} {b : Block}
    (he : e.kind = .eof) (hne : ∀ t ∈ us, t.kind ≠ .eof) (hfuel : 4 * us.length + 2 ≤ fuel) :
    (∃ feed', block fuel .program .first ⟨us, .ok e, .first⟩ = .done b feed') ↔
      ∃ l, Spells us (.items l) ∧ b = .ofItems l (Span.first.through us) := by
  have hw : Feed.Whole ⟨us, .ok e, .first⟩ := ⟨⟨e, rfl, he⟩, hne⟩
  constructor
  · rintro ⟨feed', h⟩
    obtain ⟨ts, l, ⟨htook, hitems⟩, hspell, rfl⟩ := (blockSound fuel).block hw h
    obtain rfl : us = ts := by simpa [hitems] using htook.items
    exact ⟨l, hspell, by rw [htook.last]; rfl⟩
  · rintro ⟨l, hspell, rfl⟩
    obtain ⟨fuel, rfl⟩ := Nat.exists_eq_add_one.mpr (show 0 < fuel by omega)
    have htook : Took ⟨us, .ok e, .first⟩ us ⟨[], .ok e, lastSpanOf .first us⟩ :=
      ⟨(List.append_nil us).symm, rfl, rfl⟩
    have hitems : items fuel .program .first ⟨us, .ok e, .first⟩ =
        .done l ⟨[], .ok e, lastSpanOf .first us⟩ :=
      hspell.accepts.2 hw ⟨htook, rfl⟩ nofun (by omega)
    refine ⟨⟨[], .ok e, lastSpanOf .first us⟩, ?_⟩
    simp only [block, bind_eq_done, lastSpan_eq_done, pure_eq_done]
    exact ⟨_, _, hitems, _, _, ⟨rfl, rfl⟩, rfl, rfl⟩

/-- A source gives a program if and only if its text does. -/
theorem parse_eq_ok_iff {source : Source} {b : Block} :
    parse source = .ok b ↔ ∃ feed, parseText source.text = .done b feed := by
  unfold parse
  cases parseText source.text with
  | done program feed => simp
  | fault fault => simp
  | exhausted => simp

/-- A text that can be read to its end gives the program that its tokens spell. -/
theorem parse_eq_ok_of_lexes (source : Source) {ts : List Token} {b : Block}
    (h : (Reader.ofText source.text false).Lexes ts) :
    parse source = .ok b ↔ SpellsProgram (Token.solid ts) b := by
  obtain ⟨us, e, hsolid, he, hne, hfeed⟩ := Feed.ofText_of_lexes h
  rw [parse_eq_ok_iff, parseText, hfeed]
  have hfuel : 4 * us.length + 2 ≤ fuelFor us.length := by
    unfold fuelFor
    omega
  refine (block_eq_done_iff he hne hfuel).trans ⟨?_, ?_⟩
  · rintro ⟨l, hspell, rfl⟩
    exact ⟨us, e, l, hsolid, he, hspell, rfl⟩
  · rintro ⟨us', e', l, heq, -, hspell, rfl⟩
    obtain ⟨rfl, rfl⟩ := List.append_singleton_inj.mp (hsolid.symm.trans heq)
    exact ⟨l, hspell, rfl⟩

/-- For every text that can be read to its end, the parser gives a program if and only if the tokens
    without the trivia are derivable in the grammar, and the program is the tree of the derivation.
    In that tree there is everywhere one operator fewer than operands, only variables are negated,
    and the parameters that are copied back are given in ascending order. -/
theorem parse_eq_ok_iff_spells {source : Source} {ts : List Token}
    (h : tokenize source.text = .ok ts) :
    (∀ b, parse source = .ok b ↔ SpellsProgram (Token.solid ts) b) ∧
      ∀ b, parse source = .ok b → b.shaped anyName = true := by
  have hlexes := Reader.lexes_of_tokenize h
  refine ⟨fun b => parse_eq_ok_of_lexes source hlexes, ?_⟩
  intro b hb
  obtain ⟨us, e, l, -, -, hspell, rfl⟩ := (parse_eq_ok_of_lexes source hlexes).mp hb
  exact Block.shaped_ofItems _ hspell.shaped

/-- A result that passes a test is there. -/
theorem exists_ok_of_any {ε α : Type} {x : Except ε α} {p : α → Bool}
    (h : x.toOption.any p = true) : ∃ a, x = .ok a ∧ p a = true := by
  cases x with
  | ok a => exact ⟨a, rfl, h⟩
  | error e => cases h

/-- A definition and a call, with a `fn` in between that could belong to either. -/
def definitionAndCall : Source := .ofString "p" "fn g() end fn m.h(-1)"

/-- The `fn` belongs to the `end` before it, so that a definition and a call are left. -/
theorem parse_eq_ok_iff_spells_endFn :
    ∃ ts b, tokenize definitionAndCall.text = .ok ts ∧ parse definitionAndCall = .ok b ∧
      SpellsProgram (Token.solid ts) b ∧ b.functions.length = 1 ∧ b.stmts.length = 1 := by
  have hlex : (tokenize definitionAndCall.text).toOption.any (fun _ => true) = true := by
    decide +kernel
  have hparse : (parse definitionAndCall).toOption.any
      (fun b => b.functions.length = 1 && b.stmts.length = 1) = true := by
    decide +kernel
  obtain ⟨ts, hts, -⟩ := exists_ok_of_any hlex
  obtain ⟨b, hb, hcount⟩ := exists_ok_of_any hparse
  refine ⟨ts, b, hts, hb, ((parse_eq_ok_iff_spells hts).1 b).mp hb, ?_⟩
  simpa using hcount

end TierScript
