import TierScript.Token.Trie

/-!
# A trie is its table

The nodes of a trie live in one array and know each other by index. Inserting a word walks along the
nodes that are there and appends the missing ones, so the trie of a table is right only if every
node stands for one word, all the time.

* `Trie.lastFor`: what a table says about a word.
* `Trie.Labelled`: every node is labelled with the word that leads to it, from the root and along
  the children that are stored, all of which are nodes.
* `Trie.Tabulates`: the values at the nodes are what the table says about their labels.
* `Trie.ofTable_exact`: a look-up in the trie of a table gives what the table says.
-/

namespace TierScript.Trie

variable {α : Type} {t : Trie α} {label : Nat → List Char} {i j k : Nat} {c d : Char} {a : α}
  {word : List Char} {entries : List (List Char × α)}

/-- The value of the last entry for a word. -/
def lastFor (entries : List (List Char × α)) (word : List Char) : Option α :=
  ((entries.filter fun entry => entry.1 == word).getLast?).map Prod.snd

theorem lastFor_concat (entries : List (List Char × α)) (entry : List Char × α)
    (word : List Char) :
    lastFor (entries ++ [entry]) word =
      if entry.1 = word then some entry.2 else lastFor entries word := by
  by_cases h : entry.1 = word
  · simp [lastFor, List.filter_append, h]
  · simp [lastFor, List.filter_append, h]

theorem mem_of_lastFor (h : lastFor entries word = some a) : (word, a) ∈ entries := by
  obtain ⟨entry, hentry, rfl⟩ := Option.map_eq_some_iff.mp h
  obtain ⟨hmem, hword⟩ := List.mem_filter.mp (List.mem_of_getLast? hentry)
  rw [← eq_of_beq hword]
  exact hmem

/-! ## Nodes -/

/-- The value at node `i`. -/
def value? (t : Trie α) (i : Nat) : Option α := t.nodes[i]?.bind Node.value

/-- The children that node `i` stores. -/
def children (t : Trie α) (i : Nat) : List (Char × Nat) :=
  (t.nodes[i]?.map Node.children).getD []

theorem child?_eq_lookup (t : Trie α) (i : Nat) (c : Char) :
    t.child? i c = (t.children i).lookup c := by
  unfold child? children
  cases t.nodes[i]? <;> rfl

theorem walk?_append (t : Trie α) (i : Nat) (front back : List Char) :
    t.walk? i (front ++ back) = (t.walk? i front).bind fun j => t.walk? j back := by
  induction front generalizing i with
  | nil => rfl
  | cons c cs ih =>
    rw [List.cons_append, walk?, walk?]
    cases t.child? i c with
    | none => rfl
    | some next => exact ih next

theorem walk?_concat (h : t.walk? i word = some j) (c : Char) :
    t.walk? i (word ++ [c]) = t.child? j c := by
  rw [walk?_append, h]
  simp [walk?]

/-- Every node is labelled with the word that leads to it, and every stored child is a node, one
    character further than its parent. -/
structure Labelled (t : Trie α) (label : Nat → List Char) : Prop where
  root : label 0 = []
  nonempty : 0 < t.nodes.size
  child : ∀ {i c j}, (c, j) ∈ t.children i →
    i < t.nodes.size ∧ j < t.nodes.size ∧ label j = label i ++ [c]
  reached : ∀ {i}, i < t.nodes.size → t.walk? 0 (label i) = some i

namespace Labelled

variable (h : t.Labelled label)
include h

theorem child? (hc : t.child? i c = some j) :
    i < t.nodes.size ∧ j < t.nodes.size ∧ label j = label i ++ [c] := by
  rw [child?_eq_lookup] at hc
  obtain ⟨front, back, hsplit, -⟩ := List.lookup_eq_some_iff.mp hc
  exact h.child (by simp [hsplit])

/-- A walk ends at a node, whose label is longer by the word. -/
theorem walk? (hi : i < t.nodes.size) (hw : t.walk? i word = some j) :
    j < t.nodes.size ∧ label j = label i ++ word := by
  induction word generalizing i with
  | nil => cases hw; exact ⟨hi, by simp⟩
  | cons c cs ih =>
    obtain ⟨next, hchild, hrest⟩ := Option.bind_eq_some_iff.mp hw
    obtain ⟨-, hnext, hlabel⟩ := h.child? hchild
    obtain ⟨hj, hword⟩ := ih hnext hrest
    exact ⟨hj, by rw [hword, hlabel, List.append_assoc]; rfl⟩

/-- Different nodes have different labels. -/
theorem injective (hi : i < t.nodes.size) (hj : j < t.nodes.size) (hlabel : label i = label j) :
    i = j := by
  have hwalk := h.reached hi
  rw [hlabel, h.reached hj] at hwalk
  exact (Option.some.inj hwalk).symm

end Labelled

/-! ## Extending -/

@[simp] theorem size_extend : (t.extend i c).nodes.size = t.nodes.size + 1 := by
  simp [extend]

@[simp] theorem value?_extend : (t.extend i c).value? k = t.value? k := by
  simp only [value?, extend, Array.getElem?_push, Array.size_modify, Array.getElem?_modify]
  split
  · next hk => simp [hk]
  · split
    · cases t.nodes[k]? <;> rfl
    · rfl

/-- Node `i` has one child more, the node that was appended. -/
theorem children_extend (hi : i < t.nodes.size) :
    (t.extend i c).children k =
      if k = i then t.children i ++ [(c, t.nodes.size)] else t.children k := by
  simp only [children, extend, Array.getElem?_push, Array.size_modify, Array.getElem?_modify]
  by_cases hk : k = t.nodes.size
  · simp [hk, show t.nodes.size ≠ i by omega]
  · by_cases hki : k = i
    · subst hki
      simp [hk, hi]
    · simp [hk, hki, Ne.symm hki]

/-- What is found without the new node is found with it. -/
theorem child?_extend_of_some (hi : i < t.nodes.size) (hc : t.child? k d = some j) :
    (t.extend i c).child? k d = some j := by
  rw [child?_eq_lookup] at hc ⊢
  rw [children_extend hi]
  by_cases hk : k = i
  · subst hk
    simp [List.lookup_append, hc]
  · simp [hk, hc]

theorem child?_extend_self (hi : i < t.nodes.size) (hc : t.child? i c = none) :
    (t.extend i c).child? i c = some t.nodes.size := by
  rw [child?_eq_lookup] at hc ⊢
  simp [children_extend hi, List.lookup_append, hc]

theorem walk?_extend_of_some (hi : i < t.nodes.size) (hw : t.walk? k word = some j) :
    (t.extend i c).walk? k word = some j := by
  induction word generalizing k with
  | nil => exact hw
  | cons d ds ih =>
    obtain ⟨next, hchild, hrest⟩ := Option.bind_eq_some_iff.mp hw
    rw [walk?, child?_extend_of_some hi hchild]
    exact ih hrest

theorem Labelled.extend (h : t.Labelled label) (hi : i < t.nodes.size)
    (hc : t.child? i c = none) :
    (t.extend i c).Labelled (fun k => if k = t.nodes.size then label i ++ [c] else label k) where
  root := by rw [if_neg (Nat.ne_of_lt h.nonempty), h.root]
  nonempty := by simp
  child := by
    intro k d j hj
    rw [children_extend hi] at hj
    rw [size_extend]
    have hold (hj : (d, j) ∈ t.children k) : k < t.nodes.size + 1 ∧ j < t.nodes.size + 1 ∧
        (if j = t.nodes.size then label i ++ [c] else label j) =
          (if k = t.nodes.size then label i ++ [c] else label k) ++ [d] := by
      obtain ⟨hk, hj, hlabel⟩ := h.child hj
      refine ⟨by omega, by omega, ?_⟩
      rw [if_neg (by omega), if_neg (by omega), hlabel]
    by_cases hk : k = i
    · subst hk
      rw [if_pos rfl] at hj
      rcases List.mem_append.mp hj with hj | hj
      · exact hold hj
      · cases List.mem_singleton.mp hj
        exact ⟨by omega, by omega, by rw [if_pos rfl, if_neg (by omega)]⟩
    · rw [if_neg hk] at hj
      exact hold hj
  reached := by
    intro k hk
    rw [size_extend] at hk
    have hwalk := walk?_extend_of_some (c := c) hi (h.reached hi)
    by_cases hnew : k = t.nodes.size
    · subst hnew
      rw [if_pos rfl, walk?_concat hwalk, child?_extend_self hi hc]
    · rw [if_neg hnew]
      exact walk?_extend_of_some hi (h.reached (by omega))

/-! ## Inserting -/

/-- Reaching a word labels a node with it. The nodes that are there keep their labels, and no value
    changes. -/
theorem Labelled.reach (h : t.Labelled label) (hi : i < t.nodes.size) (word : List Char) :
    ∃ label', (t.reach i word).1.Labelled label' ∧
      t.nodes.size ≤ (t.reach i word).1.nodes.size ∧
      (t.reach i word).2 < (t.reach i word).1.nodes.size ∧
      label' (t.reach i word).2 = label i ++ word ∧
      (∀ k < t.nodes.size, label' k = label k) ∧
      (∀ k, (t.reach i word).1.value? k = t.value? k) := by
  induction word generalizing t i label with
  | nil => exact ⟨label, h, Nat.le_refl _, hi, by simp [Trie.reach], fun _ _ => rfl, fun _ => rfl⟩
  | cons c cs ih =>
    rw [Trie.reach]
    cases hchild : t.child? i c with
    | some next =>
      obtain ⟨-, hnext, hlabel⟩ := h.child? hchild
      obtain ⟨label', h', hsize, hlast, hword, hlabels, hvalues⟩ := ih h hnext
      refine ⟨label', h', hsize, hlast, ?_, hlabels, hvalues⟩
      rw [hword, hlabel, List.append_assoc]
      rfl
    | none =>
      obtain ⟨label', h', hsize, hlast, hword, hlabels, hvalues⟩ :=
        ih (h.extend hi hchild) (i := t.nodes.size) (by simp)
      rw [size_extend] at hsize hlabels
      refine ⟨label', h', by dsimp only; omega, hlast, ?_, ?_,
        fun k => (hvalues k).trans value?_extend⟩
      · rw [hword, if_pos rfl, List.append_assoc]
        rfl
      · intro k hk
        rw [hlabels k (by omega), if_neg (by omega)]

/-- The trie with the value `a` at node `i`. -/
def setValue (t : Trie α) (i : Nat) (a : α) : Trie α :=
  ⟨t.nodes.modify i fun node => { node with value := some a }⟩

theorem insert_eq (t : Trie α) (word : List Char) (a : α) :
    t.insert word a = (t.reach 0 word).1.setValue (t.reach 0 word).2 a := rfl

@[simp] theorem size_setValue : (t.setValue i a).nodes.size = t.nodes.size := by
  simp [setValue]

@[simp] theorem children_setValue : (t.setValue i a).children k = t.children k := by
  simp only [children, setValue, Array.getElem?_modify]
  by_cases hik : i = k
  · cases t.nodes[k]? <;> simp [hik]
  · simp [hik]

theorem value?_setValue (hi : i < t.nodes.size) :
    (t.setValue i a).value? k = if k = i then some a else t.value? k := by
  simp only [value?, setValue, Array.getElem?_modify]
  by_cases hik : i = k
  · subst hik
    simp [hi]
  · simp [hik, Ne.symm hik]

theorem walk?_setValue : (t.setValue i a).walk? k word = t.walk? k word := by
  induction word generalizing k with
  | nil => rfl
  | cons c cs ih => simp only [walk?, child?_eq_lookup, children_setValue, ih]

theorem Labelled.setValue (h : t.Labelled label) : (t.setValue i a).Labelled label where
  root := h.root
  nonempty := by simpa using h.nonempty
  child := by
    intro k d j hj
    rw [children_setValue] at hj
    simpa using h.child hj
  reached := by
    intro k hk
    rw [size_setValue] at hk
    rw [walk?_setValue, h.reached hk]

/-! ## Tables -/

/-- The value at a node is what the table says about its label, and every word of the table is the
    label of a node. -/
structure Tabulates (t : Trie α) (label : Nat → List Char) (entries : List (List Char × α)) :
    Prop where
  labelled : t.Labelled label
  value : ∀ {i}, i < t.nodes.size → t.value? i = lastFor entries (label i)
  entered : ∀ entry ∈ entries, ∃ i < t.nodes.size, label i = entry.1

theorem Tabulates.find? (h : t.Tabulates label entries) (word : List Char) :
    t.find? word = lastFor entries word := by
  unfold Trie.find?
  cases hwalk : t.walk? 0 word with
  | some i =>
    obtain ⟨hi, hlabel⟩ := h.labelled.walk? h.labelled.nonempty hwalk
    rw [h.labelled.root, List.nil_append] at hlabel
    exact hlabel ▸ h.value hi
  | none =>
    cases hlast : lastFor entries word with
    | none => rfl
    | some a =>
      obtain ⟨i, hi, hlabel⟩ := h.entered _ (mem_of_lastFor hlast)
      have hreached := h.labelled.reached hi
      rw [hlabel, hwalk] at hreached
      cases hreached

/-- A node without a label in the table has no value yet, so the new entry is the only one for the
    word that it is inserted for. -/
theorem Tabulates.insert (h : t.Tabulates label entries) (word : List Char) (a : α) :
    ∃ label', (t.insert word a).Tabulates label' (entries ++ [(word, a)]) := by
  obtain ⟨label', h', hsize, hlast, hword, hlabels, hvalues⟩ :=
    h.labelled.reach h.labelled.nonempty word
  rw [h.labelled.root, List.nil_append] at hword
  rw [insert_eq]
  refine ⟨label', h'.setValue, ?_, ?_⟩
  · intro k hk
    rw [size_setValue] at hk
    rw [value?_setValue hlast, lastFor_concat, hvalues]
    by_cases hnew : k = (t.reach 0 word).2
    · rw [if_pos hnew, if_pos (by rw [hnew, hword])]
    · have hother : word ≠ label' k := fun heq => hnew (h'.injective hk hlast (heq ▸ hword.symm))
      rw [if_neg hnew, if_neg hother]
      by_cases hold : k < t.nodes.size
      · rw [h.value hold, hlabels k hold]
      · have hnone : t.value? k = none := by
          simp [value?, Array.getElem?_eq_none (Nat.le_of_not_lt hold)]
        cases hentry : lastFor entries (label' k) with
        | none => exact hnone
        | some b =>
          -- the word of an entry is the label of a node that was there before
          obtain ⟨i, hi, hlabel⟩ := h.entered _ (mem_of_lastFor hentry)
          have hik := h'.injective (by omega) hk ((hlabels i hi).trans hlabel)
          exact absurd (hik ▸ hi) hold
  · intro entry hentry
    rw [size_setValue]
    rcases List.mem_append.mp hentry with hold | hnew
    · obtain ⟨i, hi, hlabel⟩ := h.entered entry hold
      exact ⟨i, by omega, (hlabels i hi).trans hlabel⟩
    · rw [List.mem_singleton.mp hnew]
      exact ⟨_, hlast, hword⟩

theorem tabulates_empty : (empty : Trie α).Tabulates (fun _ => []) [] := by
  refine ⟨⟨rfl, by simp [empty], ?_, ?_⟩, ?_, nofun⟩
  · intro i c j hj
    cases i <;> simp [children, empty] at hj
  · intro i hi
    obtain rfl : i = 0 := by simpa [empty] using hi
    rfl
  · intro i hi
    obtain rfl : i = 0 := by simpa [empty] using hi
    rfl

theorem tabulates_ofTable (entries : List (List Char × α)) :
    ∃ label, (ofTable entries).Tabulates label entries := by
  have hfold (seen rest : List (List Char × α)) (t : Trie α)
      (ht : ∃ label, t.Tabulates label seen) :
      ∃ label, (rest.foldl (fun t entry => t.insert entry.1 entry.2) t).Tabulates label
        (seen ++ rest) := by
    induction rest generalizing seen t with
    | nil => simpa using ht
    | cons entry rest ih =>
      obtain ⟨label, ht⟩ := ht
      simpa using ih (seen ++ [entry]) _ (ht.insert entry.1 entry.2)
  exact hfold [] entries empty ⟨_, tabulates_empty⟩

theorem mem_of_find?_ofTable (h : (ofTable entries).find? word = some a) :
    (word, a) ∈ entries := by
  obtain ⟨label, htable⟩ := tabulates_ofTable entries
  rw [htable.find?] at h
  exact mem_of_lastFor h

/-- A look-up in the trie of a table gives the value of the last entry for the word, and nothing if
    there is no such entry. Every child that a node stores is a node of the trie, and so is every
    node that a look-up comes to. -/
theorem ofTable_exact (entries : List (List Char × α)) :
    (∀ word, (ofTable entries).find? word = lastFor entries word) ∧
    (∀ word, lastFor entries word = none ↔ ∀ entry ∈ entries, entry.1 ≠ word) ∧
    (∀ node ∈ (ofTable entries).nodes, ∀ child ∈ node.children,
      child.2 < (ofTable entries).nodes.size) ∧
    ∀ word i, (ofTable entries).walk? 0 word = some i → i < (ofTable entries).nodes.size := by
  obtain ⟨label, htable⟩ := tabulates_ofTable entries
  have hlabelled := htable.labelled
  refine ⟨htable.find?, ?_, ?_, ?_⟩
  · intro word
    simp [lastFor]
  · intro node hnode child hchild
    obtain ⟨i, hi, rfl⟩ := Array.mem_iff_getElem.mp hnode
    have hmem : child ∈ (ofTable entries).children i := by simpa [children, hi] using hchild
    exact (hlabelled.child hmem).2.1
  · intro word i hwalk
    exact (hlabelled.walk? hlabelled.nonempty hwalk).1

/-- A table with words that start others and with two entries for one word. -/
def overlapping : List (List Char × Nat) :=
  [(['a', 'b'], 1), (['a'], 2), (['a', 'b', 'c', 'd'], 3), (['a', 'b'], 4)]

/-- Of the two entries for `ab` the later one counts, and `abc` is no word. The root stores the node
    of `a`, and the walk along `abcd` ends at the last of the five nodes. -/
theorem ofTable_exact_overlapping :
    (ofTable overlapping).find? ['a', 'b'] = some 4 ∧
      (ofTable overlapping).find? ['a', 'b', 'c'] = none ∧
      (∃ node ∈ (ofTable overlapping).nodes, ('a', 1) ∈ node.children ∧
        1 < (ofTable overlapping).nodes.size) ∧
      (ofTable overlapping).walk? 0 ['a', 'b', 'c', 'd'] = some 4 ∧
      4 < (ofTable overlapping).nodes.size := by
  obtain ⟨hfind, hnone, hchild, hwalk⟩ := ofTable_exact overlapping
  have hword : (ofTable overlapping).walk? 0 ['a', 'b', 'c', 'd'] = some 4 := by decide
  have hroot : ∃ node ∈ (ofTable overlapping).nodes, ('a', 1) ∈ node.children := by
    exact ⟨_, Array.getElem_mem (show 0 < (ofTable overlapping).nodes.size by decide), by decide⟩
  obtain ⟨root, hmem, hstored⟩ := hroot
  have hab : lastFor overlapping ['a', 'b'] = some 4 := by decide
  have habc : ∀ entry ∈ overlapping, entry.1 ≠ ['a', 'b', 'c'] := by decide
  refine ⟨(hfind _).trans hab, (hfind _).trans ((hnone _).mpr habc), ?_, hword, hwalk _ _ hword⟩
  exact ⟨root, hmem, hstored, hchild root hmem _ hstored⟩

end TierScript.Trie
