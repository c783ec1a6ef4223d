/-!
# A trie of words

A map from words to values, stored as a tree of characters. The nodes live in one array and refer to
their children by index; node `0` is the root. Inserting a word walks down from the root and appends
the nodes that are missing.
-/

namespace TierScript

/-- A node: its children by character, and the value of the word that ends here (`TrieNode`). -/
structure Trie.Node (α : Type) where
  children : List (Char × Nat) := []
  value : Option α := none
  deriving Repr, Inhabited

/-- Nodes in one array, the root first (`KeywordTrie`). -/
structure Trie (α : Type) where
  nodes : Array (Trie.Node α)
  deriving Repr, Inhabited

namespace Trie

variable {α : Type}

/-- The trie of no words. -/
def empty : Trie α := ⟨#[{}]⟩

/-- The child of node `i` along `c` (in `lookup`). -/
def child? (t : Trie α) (i : Nat) (c : Char) : Option Nat :=
  t.nodes[i]?.bind fun node => node.children.lookup c

/-- Appends a fresh node and makes it the child of node `i` along `c` (in `build`). -/
def extend (t : Trie α) (i : Nat) (c : Char) : Trie α :=
  let fresh := t.nodes.size
  ⟨(t.nodes.modify i fun node => { node with children := node.children ++ [(c, fresh)] }).push {}⟩

/-- The node that `word` leads to from node `i`, creating what is missing (in `build`). -/
def reach (t : Trie α) (i : Nat) : List Char → Trie α × Nat
  | [] => (t, i)
  | c :: cs =>
    match t.child? i c with
    | some next => reach t next cs
    | none => reach (t.extend i c) t.nodes.size cs

/-- Gives `word` the value `a`, in place of any value it had (in `build`). -/
def insert (t : Trie α) (word : List Char) (a : α) : Trie α :=
  let (t', i) := t.reach 0 word
  ⟨t'.nodes.modify i fun node => { node with value := some a }⟩

/-- The trie of a table; of several entries for one word the last counts (`build`). -/
def ofTable (entries : List (List Char × α)) : Trie α :=
  entries.foldl (fun t entry => t.insert entry.1 entry.2) empty

/-- The node that `word` leads to from node `i` (the loop of `lookup`). -/
def walk? (t : Trie α) (i : Nat) : List Char → Option Nat
  | [] => some i
  | c :: cs => (t.child? i c).bind fun next => walk? t next cs

/-- The value of `word` (`lookup`). -/
def find? (t : Trie α) (word : List Char) : Option α :=
  (t.walk? 0 word).bind fun i => t.nodes[i]?.bind Node.value

end Trie

end TierScript
