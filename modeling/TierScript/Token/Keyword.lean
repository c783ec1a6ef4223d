import TierScript.Token.Kind
import TierScript.Token.Trie

/-!
# Reserved words

Every reserved word and the kind of token it is. `if`, `while` and `for` have the short forms `f`
and `w`. Which of these words a token really is depends on what follows it; that is decided where
words are scanned.
-/

namespace TierScript

/-- The table of reserved words (`KEYWORDS`). -/
def keywords : List (String × Kind) :=
  [("s", .tier .loc), ("ss", .tier .session), ("sss", .tier .global),
   ("if", .ifWord), ("f", .ifWord), ("while", .whileWord), ("w", .whileWord), ("for", .forWord),
   ("else", .elseWord), ("break", .breakWord), ("endcode", .endcodeWord), ("fn", .fnWord),
   ("end", .endWord), ("true", .trueWord), ("false", .falseWord), ("null", .nullWord)]

/-- The trie of the reserved words (`KEYWORD_TRIE`). -/
def keywordTrie : Trie Kind :=
  .ofTable (keywords.map fun entry => (entry.1.toList, entry.2))

/-- The kind of a reserved word, and nothing for any other word (`lookup`). -/
def keyword? (word : List Char) : Option Kind :=
  keywordTrie.find? word

end TierScript
