import TierScript.Proofs.Program.Faults
import TierScript.Proofs.Program.Placeless

/-!
# Programs one after another

Two programs that are joined by a line with a semicolon are parsed as one, with the statements and
the functions of the first before those of the second.

* `Spells.items_append`: items after items are items, as long as no `fn` comes into question as a
  part of the item before it.
* `parse_join`: the program that the joined text gives.
-/

namespace TierScript

open Parse (Item)

/-! ## Items after items -/

/-- Items and then items are items, unless a `fn` at the start of the second could belong to the
    last definition of the first. -/
theorem Spells.items_append {ts us : List Token} {l m : List Item} (h : Spells ts (.items l))
    (h' : Spells us (.items m)) (hus : ∀ t ∈ us.head?, t.kind ≠ .fnWord) :
    Spells (ts ++ us) (.items (l ++ m)) := by
  generalize hp : Phrase.items l = p at h
  induction h generalizing l with
  | noItems =>
    cases hp
    exact h'
  | semicolon hs _ ih =>
    cases hp
    exact .semicolon hs (ih rfl)
  | @nextItem ts x bare r l _ _ hfn _ ih =>
    cases hp
    rw [List.append_assoc]
    refine .nextItem ‹_› (ih rfl) fun hbare t ht => ?_
    cases r with
    | nil => exact hus t ht
    | cons u r => exact hfn hbare t ht
  | _ => cases hp

open Reader (separator)

/-- Two programs that are joined by a line with a semicolon are one program: the statements and the
    functions of the first, and then those of the second, the same up to their places. -/
theorem parse_join {a b : List Char} {first second : String} {p q : Block}
    (hp : parse ⟨first, a⟩ = .ok p) (hq : parse ⟨second, b⟩ = .ok q) (joined : String) :
    ∃ r q' : Block, parse ⟨joined, a ++ separator ++ b⟩ = .ok r ∧ q'.bare = q.bare ∧
      r.stmts = p.stmts ++ q'.stmts ∧ r.functions = p.functions ++ q'.functions := by
  obtain ⟨ts, hts⟩ := tokenize_of_parse hp
  obtain ⟨us, hus⟩ := tokenize_of_parse hq
  have ha := Reader.lexes_of_tokenize hts
  have hb := Reader.lexes_of_tokenize hus
  obtain ⟨xs, e, l, hxs, -, hspell, rfl⟩ := (parse_eq_ok_of_lexes ⟨first, a⟩ ha).mp hp
  obtain ⟨ys, e', m, hys, he', hspell', rfl⟩ := (parse_eq_ok_of_lexes ⟨second, b⟩ hb).mp hq
  obtain ⟨vs, xs', e'', s, bytes, lines, hjoined, hxs', -, hs, hvs⟩ := ha.join hb
  obtain ⟨rfl, rfl⟩ := List.append_singleton_inj.mp (hxs.symm.trans hxs')
  obtain ⟨m', hmoved, hbare⟩ := hspell'.elsewhere (Token.keepsText_moved bytes lines)
  have hitems : Spells (xs ++ s :: ys.map (Token.moved bytes lines)) (.items (l ++ m')) := by
    refine hspell.items_append (.semicolon hs hmoved) ?_
    rintro t ⟨⟩
    rw [hs]
    nofun
  have hprogram : SpellsProgram (Token.solid vs) (.ofItems (l ++ m')
      (Span.first.through (xs ++ s :: ys.map (Token.moved bytes lines)))) := by
    refine ⟨_, e'.moved bytes lines, _, ?_, he', hitems, rfl⟩
    rw [hvs, hys]
    simp
  refine ⟨_, .ofItems m' .first, (parse_eq_ok_of_lexes ⟨joined, _⟩ hjoined).mpr hprogram,
    Block.bare_ofItems_eq hbare _ _, ?_, ?_⟩
  · exact List.filterMap_append
  · exact List.filterMap_append

/-- A definition, and a comment that ends with a carriage return. -/
def definitionAndRemark : List Char := "fn g(*x) s.x = 1 end // remark\r".toList

/-- A line that is a comment because of the dot in its first column, and a call after a `fn` that
    could belong to the `end` of a definition before it. -/
def remarkAndCall : List Char := ".remark\nfn m.h(2) if (s.a == 1) \x7b \x7d".toList

/-- Joined, they are the definition and the two statements. -/
theorem parse_join_remarks :
    ∃ p q r q' : Block, parse ⟨"a", definitionAndRemark⟩ = .ok p ∧
      parse ⟨"b", remarkAndCall⟩ = .ok q ∧
      parse ⟨"c", definitionAndRemark ++ separator ++ remarkAndCall⟩ = .ok r ∧
      p.functions.length = 1 ∧ q.stmts.length = 2 ∧ q'.bare = q.bare ∧
      r.functions = p.functions ++ q'.functions ∧ r.stmts = q'.stmts := by
  have hfirst : (parse ⟨"a", definitionAndRemark⟩).toOption.any
      (fun b => b.functions.length = 1 && b.stmts.length = 0) = true := by
    decide +kernel
  have hsecond : (parse ⟨"b", remarkAndCall⟩).toOption.any
      (fun b => b.stmts.length = 2) = true := by
    decide +kernel
  obtain ⟨p, hp, hpcount⟩ := exists_ok_of_any hfirst
  obtain ⟨q, hq, hqcount⟩ := exists_ok_of_any hsecond
  simp only [Bool.and_eq_true, decide_eq_true_eq] at hpcount hqcount
  obtain ⟨r, q', hr, hbare, hstmts, hfns⟩ := parse_join hp hq "c"
  rw [List.length_eq_zero_iff.mp hpcount.2, List.nil_append] at hstmts
  exact ⟨p, q, r, q', hp, hq, hr, hpcount.1, hqcount, hbare, hfns, hstmts⟩

end TierScript
