import TierScript.Proofs.Token.Lines

/-!
# A text is cut at its line ends

A line is cut out between two offsets of the table and then trimmed: all carriage returns and line
feeds at its end go. Nothing but the end of the line may be lost that way, so no line may have two
ends in a row, although a text may.

* `Source.joined`: lines put together again, each with its end, before a last line without one.
* `Source.Cut`: a text put together in that way, in which a line feed never follows the end of a
  line that is a carriage return on its own.
* `Source.cut_at_terminators`: the lines of the table are such a cut of the text.
-/

namespace TierScript.Source

/-- The three ways in which a line ends. -/
inductive Terminator where
  | feed
  | pair
  | carriage
  deriving DecidableEq, Repr

/-- The characters of a line end. -/
def Terminator.chars : Terminator → List Char
  | feed => ['\n']
  | pair => ['\r', '\n']
  | carriage => ['\r']

/-- Lines, each with its end, and a last line without one. -/
def joined (rows : List (List Char × Terminator)) (last : List Char) : List Char :=
  rows.flatMap (fun row => row.1 ++ row.2.chars) ++ last

variable {cs line last : List Char} {rows : List (List Char × Terminator)} {e : Terminator}
  {c : Char}

@[simp] theorem joined_nil (last : List Char) : joined [] last = last := rfl

theorem joined_cons (line : List Char) (e : Terminator) (rows : List (List Char × Terminator))
    (last : List Char) :
    joined ((line, e) :: rows) last = line ++ (e.chars ++ joined rows last) := by
  simp [joined]

/-- The text is cut into lines without line ends. A carriage return is an end on its own only where
    no line feed follows. -/
structure Cut (cs : List Char) (rows : List (List Char × Terminator)) (last : List Char) :
    Prop where
  text : joined rows last = cs
  plain : ∀ row ∈ rows, ∀ c ∈ row.1, isLineEnd c = false
  plainLast : ∀ c ∈ last, isLineEnd c = false
  carriage : ∀ front line back, rows = front ++ (line, .carriage) :: back →
    (joined back last).head? ≠ some '\n'

namespace Cut

theorem nil : Cut [] [] [] := ⟨rfl, nofun, nofun, by simp⟩

/-- An empty line in front. -/
theorem terminate (h : Cut cs rows last) (e : Terminator)
    (he : e = .carriage → cs.head? ≠ some '\n') :
    Cut (e.chars ++ cs) (([], e) :: rows) last := by
  refine ⟨by rw [joined_cons, h.text, List.nil_append], ?_, h.plainLast, ?_⟩
  · intro row hrow
    rcases List.mem_cons.mp hrow with rfl | hrow
    · simp
    · exact h.plain row hrow
  · intro front line back hrows
    cases front with
    | nil =>
      cases hrows
      rw [h.text]
      exact he rfl
    | cons _ front => exact h.carriage front line back (List.cons.inj hrows).2

/-- One character more in the only line. -/
theorem extendLast (h : Cut cs [] last) (hc : isLineEnd c = false) :
    Cut (c :: cs) [] (c :: last) := by
  refine ⟨by rw [← h.text]; rfl, nofun, ?_, by simp⟩
  intro d hd
  rcases List.mem_cons.mp hd with rfl | hd
  · exact hc
  · exact h.plainLast d hd

/-- One character more in the first of several lines. -/
theorem extendRow (h : Cut cs ((line, e) :: rows) last) (hc : isLineEnd c = false) :
    Cut (c :: cs) ((c :: line, e) :: rows) last := by
  refine ⟨by rw [← h.text, joined_cons, joined_cons, List.cons_append], ?_, h.plainLast, ?_⟩
  · intro row hrow
    rcases List.mem_cons.mp hrow with rfl | hrow
    · intro d hd
      rcases List.mem_cons.mp hd with rfl | hd
      · exact hc
      · exact h.plain _ List.mem_cons_self d hd
    · exact h.plain row (List.mem_cons_of_mem _ hrow)
  · intro front line' back hrows
    cases front with
    | nil =>
      cases hrows
      exact h.carriage [] line _ rfl
    | cons _ front =>
      obtain ⟨-, hrest⟩ := List.cons.inj hrows
      exact h.carriage ((line, e) :: front) line' back (by rw [hrest]; rfl)

theorem tail (h : Cut cs ((line, e) :: rows) last) : Cut (joined rows last) rows last := by
  refine ⟨rfl, fun row hrow => h.plain row (List.mem_cons_of_mem _ hrow), h.plainLast, ?_⟩
  intro front line' back hrows
  exact h.carriage ((line, e) :: front) line' back (by rw [hrows]; rfl)

end Cut

/-- A line that has no line ends lies in front of any line end of the text. -/
theorem exists_before (hline : ∀ c ∈ line, isLineEnd c = false) {rest before after : List Char}
    (hc : isLineEnd c = true) (h : line ++ rest = before ++ c :: after) :
    ∃ more, before = line ++ more ∧ rest = more ++ c :: after := by
  rcases List.append_eq_append_iff.mp h with ⟨more, hbefore, hrest⟩ | ⟨more, hline', hrest⟩
  · exact ⟨more, hbefore, hrest⟩
  · cases more with
    | nil => exact ⟨[], by simpa using hline'.symm, hrest.symm⟩
    | cons d ds =>
      -- the line end would be a character of the line
      obtain ⟨rfl, -⟩ := List.cons.inj hrest
      have hin := hline c (by rw [hline']; simp)
      rw [hc] at hin
      cases hin

/-- A carriage return and the line feed after it are the end of one line. -/
theorem Cut.pair (h : Cut cs rows last) {before after : List Char}
    (hcs : cs = before ++ '\r' :: '\n' :: after) :
    ∃ front line back, rows = front ++ (line, .pair) :: back ∧ before = joined front line ∧
      after = joined back last := by
  induction rows generalizing cs before with
  | nil =>
    have hmem : '\r' ∈ last := by
      rw [show last = cs from h.text, hcs]
      simp
    exact absurd (h.plainLast _ hmem) (by decide)
  | cons row rows ih =>
    obtain ⟨line, e⟩ := row
    have htext := h.text.trans hcs
    rw [joined_cons] at htext
    obtain ⟨more, rfl, hmore⟩ := exists_before (h.plain _ List.mem_cons_self) (by decide) htext
    -- the pair is found later on, behind the end of this line
    have hlater {rest : List Char} (hrest : joined rows last = rest ++ '\r' :: '\n' :: after)
        (he : e.chars ++ rest = more) :
        ∃ front line' back, (line, e) :: rows = front ++ (line', .pair) :: back ∧
          line ++ more = joined front line' ∧ after = joined back last := by
      obtain ⟨front, line', back, hrows, hbefore, hafter⟩ := ih h.tail hrest
      refine ⟨(line, e) :: front, line', back, by rw [hrows]; rfl, ?_, hafter⟩
      rw [joined_cons, ← hbefore, he]
    cases e with
    | feed =>
      cases more with
      | nil => cases hmore
      | cons d more =>
        obtain ⟨rfl, hrest⟩ := List.cons.inj hmore
        exact hlater hrest rfl
    | carriage =>
      cases more with
      | nil =>
        obtain ⟨-, hrest⟩ := List.cons.inj hmore
        exact absurd (by rw [show joined rows last = _ from hrest]; rfl)
          (h.carriage [] line rows rfl)
      | cons d more =>
        obtain ⟨rfl, hrest⟩ := List.cons.inj hmore
        exact hlater hrest rfl
    | pair =>
      cases more with
      | nil =>
        obtain ⟨-, hfeed⟩ := List.cons.inj hmore
        obtain ⟨-, hrest⟩ := List.cons.inj hfeed
        exact ⟨[], line, rows, rfl, by simp, hrest.symm⟩
      | cons d more =>
        obtain ⟨rfl, hrest⟩ := List.cons.inj hmore
        cases more with
        | nil => cases hrest
        | cons d more =>
          obtain ⟨rfl, hlast⟩ := List.cons.inj hrest
          exact hlater hlast rfl

/-! ## The lines of a text -/

theorem lines_of_endsLine (h : endsLine c cs.head? = true) : lines (c :: cs) = [] :: lines cs := by
  rw [lines, if_pos h]

/-- The lines of a text are a cut of it. -/
theorem exists_cut (cs : List Char) :
    ∃ rows last, Cut cs rows last ∧ lines cs = rows.map Prod.fst ++ [last] := by
  match cs with
  | [] => exact ⟨[], [], .nil, rfl⟩
  | c :: cs =>
    by_cases hends : endsLine c cs.head? = true
    · obtain ⟨rows, last, hcut, hlines⟩ := exists_cut cs
      have hc : c = '\n' ∨ (c = '\r' ∧ cs.head? ≠ some '\n') := by
        unfold endsLine at hends
        simpa using hends
      rcases hc with rfl | ⟨rfl, hnext⟩
      · exact ⟨([], .feed) :: rows, last, hcut.terminate .feed nofun, by
          rw [lines_of_endsLine hends, hlines]; rfl⟩
      · exact ⟨([], .carriage) :: rows, last, hcut.terminate .carriage fun _ => hnext, by
          rw [lines_of_endsLine hends, hlines]; rfl⟩
    · by_cases hc : isLineEnd c = true
      · obtain ⟨ds, rfl⟩ := head?_of_isLineEnd hc (Bool.eq_false_iff.mpr hends)
        obtain ⟨rows, last, hcut, hlines⟩ := exists_cut ds
        have hreturn : c = '\r' := by
          unfold endsLine at hends
          unfold isLineEnd at hc
          grind
        subst hreturn
        refine ⟨([], .pair) :: rows, last, hcut.terminate .pair nofun, ?_⟩
        rw [lines, if_neg hends, if_pos hc, lines_of_endsLine rfl, hlines]
        rfl
      · obtain ⟨rows, last, hcut, hlines⟩ := exists_cut cs
        have hplain := Bool.eq_false_iff.mpr hc
        rw [lines, if_neg hends, if_neg hc, hlines]
        cases rows with
        | nil => exact ⟨[], c :: last, hcut.extendLast hplain, rfl⟩
        | cons row rows => exact ⟨(c :: row.1, row.2) :: rows, last, hcut.extendRow hplain, rfl⟩
termination_by cs.length
decreasing_by
  · exact Nat.lt_succ_self _
  · next hcs =>
    rw [hcs, List.length_cons, List.length_cons]
    omega
  · exact Nat.lt_succ_self _

/-- There are as many lines as the table has entries. -/
theorem lineCount_eq (s : Source) : s.lineCount = (lines s.text).length := by
  have hlength (offset : Nat) (l : List (List Char)) : (offsets offset l).length = l.length := by
    induction l generalizing offset with
    | nil => rfl
    | cons row more ih => rw [offsets, List.length_cons, List.length_cons, ih]
  rw [lineCount, lineStarts, ← offsets_rows, hlength, lines_eq_map_rows, List.length_map]

/-- The lines are numbered from 1 to the number of lines, and none of them has a line feed or a
    carriage return in it. The text is the lines with an end behind each but the last: a line feed,
    a carriage return and a line feed, or a carriage return before something else. Wherever a
    carriage return and a line feed follow each other in the text, they are the end of one line. -/
theorem cut_at_terminators (s : Source) :
    (∀ n, (s.line? n).isSome = true ↔ 1 ≤ n ∧ n ≤ s.lineCount) ∧
    (∀ n line, s.line? n = some line → ∀ c ∈ line, c ≠ '\n' ∧ c ≠ '\r') ∧
    ∃ (rows : List (List Char × Terminator)) (last : List Char),
      rows.length + 1 = s.lineCount ∧
      (∀ index, s.line? (index + 1) = (rows.map Prod.fst ++ [last])[index]?) ∧
      joined rows last = s.text ∧
      (∀ front line back, rows = front ++ (line, .carriage) :: back →
        (joined back last).head? ≠ some '\n') ∧
      ∀ before after, s.text = before ++ '\r' :: '\n' :: after →
        ∃ front line back, rows = front ++ (line, .pair) :: back ∧ before = joined front line ∧
          after = joined back last := by
  obtain ⟨rows, last, hcut, hlines⟩ := exists_cut s.text
  have hline (index : Nat) : s.line? (index + 1) = (rows.map Prod.fst ++ [last])[index]? := by
    rw [line?_eq_getElem?_lines, hlines]
  have hcount : rows.length + 1 = s.lineCount := by
    rw [lineCount_eq, hlines]
    simp
  refine ⟨?_, ?_, rows, last, hcount, hline, hcut.text, hcut.carriage, fun _ _ => hcut.pair⟩
  · intro n
    cases n with
    | zero => simp [line?]
    | succ index =>
      have hlength : (rows.map Prod.fst ++ [last]).length = rows.length + 1 := by simp
      rw [hline, ← hcount, isSome_getElem?, hlength]
      omega
  · intro n line hn c hc
    cases n with
    | zero => cases hn
    | succ index =>
      rw [hline] at hn
      have hplain : isLineEnd c = false := by
        rcases List.mem_append.mp (List.mem_of_getElem? hn) with hrow | hlast
        · obtain ⟨row, hmem, rfl⟩ := List.mem_map.mp hrow
          exact hcut.plain row hmem c hc
        · rw [List.mem_singleton.mp hlast] at hc
          exact hcut.plainLast c hc
      simpa [isLineEnd] using hplain

/-- Four line ends of the three kinds, three of them in a row and one at the end of the text. -/
def crowded : Source := .ofString "p" "a\r\r\n\nb\r"

/-- There are five lines, the third of which is empty. The line feed after the second carriage
    return belongs to it, and the one after that ends a line of its own. -/
theorem cut_at_terminators_crowded :
    (crowded.line? 5).isSome = true ∧ (crowded.line? 6).isSome = false ∧
      crowded.line? 4 = some ['b'] ∧ ('b' ≠ '\n' ∧ 'b' ≠ '\r') ∧
      ∃ (rows : List (List Char × Terminator)) (last : List Char) (front : _) (line : _) (back : _),
        joined rows last = crowded.text ∧ rows = front ++ (line, .pair) :: back ∧
        ['a', '\r'] = joined front line ∧ ['\n', 'b', '\r'] = joined back last := by
  obtain ⟨hsome, hclean, rows, last, -, -, htext, -, hpair⟩ := cut_at_terminators crowded
  have hcount : crowded.lineCount = 5 := by decide
  have hfourth : crowded.line? 4 = some ['b'] := by decide
  obtain ⟨front, line, back, hrows, hbefore, hafter⟩ :=
    hpair ['a', '\r'] ['\n', 'b', '\r'] (by decide)
  refine ⟨(hsome 5).mpr (by omega), ?_, hfourth, hclean 4 _ hfourth _ (by decide), ?_⟩
  · rw [← Bool.not_eq_true, hsome]
    omega
  · exact ⟨rows, last, front, line, back, htext, hrows, hbefore, hafter⟩

end TierScript.Source
