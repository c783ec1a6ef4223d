import TierScript.Proofs.Token.Trie
import TierScript.Token.Keyword

/-!
# Reserved words are those of the table

A word is reserved only if it stands in the table of reserved words, and has the kind that the table
gives it.
-/

namespace TierScript

/-- A reserved word stands in the table with its kind. -/
theorem mem_keywords {word : List Char} {kind : Kind} (h : keyword? word = some kind) :
    (String.ofList word, kind) ∈ keywords := by
  obtain ⟨entry, hentry, heq⟩ := List.mem_map.mp (Trie.mem_of_find?_ofTable h)
  cases heq
  simpa using hentry

/-- A word that does not stand in the table is not reserved. -/
theorem keyword?_eq_none {word : List Char}
    (h : ∀ entry ∈ keywords, entry.1 ≠ String.ofList word) : keyword? word = none := by
  cases hword : keyword? word with
  | none => rfl
  | some kind => exact absurd rfl (h _ (mem_keywords hword))

end TierScript
