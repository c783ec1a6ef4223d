import Mathlib.Data.List.TakeWhile
import TierScript.Proofs.Token.Cursor

/-!
# The lines of a text

The table of lines gives for each line the byte offset it starts at, and a line is cut out between
two such offsets. Positions are counted along the characters. Here both are compared with the text
split into its lines.

* `Source.lines`: the lines of a text, without their ends.
* `Source.line?_eq_getElem?_lines`: the table gives these lines and no others.
* `Source.getElem?_lines_positionAt`: the position of a place in a text leads to the line it is in,
  and in that line to what follows the place.
-/

namespace TierScript

open Text

namespace Source

/-! ## Splitting a text -/

/-- The lines of a text, without their ends. There is always at least one. -/
def lines : List Char → List (List Char)
  | [] => [[]]
  | c :: cs =>
    if endsLine c cs.head? then [] :: lines cs
    else if isLineEnd c then lines cs -- a carriage return whose line feed follows
    else (lines cs).modifyHead (c :: ·)

/-- The lines of a text, each with its end. -/
def rows : List Char → List (List Char)
  | [] => [[]]
  | c :: cs => if endsLine c cs.head? then [c] :: rows cs else (rows cs).modifyHead (c :: ·)

theorem exists_rows (cs : List Char) : ∃ row more, rows cs = row :: more := by
  induction cs with
  | nil => exact ⟨[], [], rfl⟩
  | cons c cs ih =>
    obtain ⟨row, more, hrows⟩ := ih
    unfold rows
    split
    · exact ⟨_, _, rfl⟩
    · exact ⟨c :: row, more, by rw [hrows]; rfl⟩

theorem flatten_rows (cs : List Char) : (rows cs).flatten = cs := by
  induction cs with
  | nil => rfl
  | cons c cs ih =>
    obtain ⟨row, more, hrows⟩ := exists_rows cs
    rw [hrows] at ih
    unfold rows
    split
    · rw [hrows, List.flatten_cons, ih]
      rfl
    · rw [hrows]
      exact congrArg (c :: ·) ih

theorem isLineEnd_of_endsLine {c : Char} {next : Option Char} (h : endsLine c next = true) :
    isLineEnd c = true := by
  unfold endsLine at h
  unfold isLineEnd
  grind

theorem trimLineEnd_cons {c : Char} (hc : isLineEnd c = false) (cs : List Char) :
    trimLineEnd (c :: cs) = c :: trimLineEnd cs := by
  unfold trimLineEnd
  rw [List.reverse_cons, List.dropWhile_append]
  split
  · next hempty => simp [List.isEmpty_iff.mp hempty, hc]
  · simp

theorem trimLineEnd_of_forall {cs : List Char} (h : ∀ c ∈ cs, isLineEnd c = true) :
    trimLineEnd cs = [] := by
  rw [trimLineEnd, List.reverse_eq_nil_iff, List.dropWhile_eq_nil_iff]
  exact fun c hc => h c (List.mem_reverse.mp hc)

/-- A line end that does not end its line is the carriage return before a line feed. -/
theorem head?_of_isLineEnd {c : Char} {cs : List Char} (hc : isLineEnd c = true)
    (hends : endsLine c cs.head? = false) : ∃ ds, cs = '\n' :: ds := by
  have hhead : cs.head? = some '\n' := by
    unfold endsLine at hends
    unfold isLineEnd at hc
    grind
  cases cs with
  | nil => cases hhead
  | cons d ds => exact ⟨ds, by rw [Option.some.inj hhead]⟩

theorem lines_eq_map_rows (cs : List Char) : lines cs = (rows cs).map trimLineEnd := by
  induction cs with
  | nil => rfl
  | cons c cs ih =>
    obtain ⟨row, more, hrows⟩ := exists_rows cs
    unfold lines rows
    split
    · next hends =>
      have hc := isLineEnd_of_endsLine hends
      rw [ih, List.map_cons, trimLineEnd_of_forall (by simpa using hc)]
    · next hends =>
      split
      · next hc =>
        obtain ⟨ds, rfl⟩ := head?_of_isLineEnd hc (Bool.eq_false_iff.mpr hends)
        have hfeed : rows ('\n' :: ds) = ['\n'] :: rows ds := rfl
        have hpair : trimLineEnd [c, '\n'] = trimLineEnd ['\n'] := by
          rw [trimLineEnd_of_forall (by simpa [isLineEnd] using hc),
            trimLineEnd_of_forall (by simp [isLineEnd])]
        rw [ih, hfeed]
        simp [hpair]
      · next hc =>
        rw [ih, hrows]
        simp [trimLineEnd_cons (Bool.eq_false_iff.mpr hc)]

/-! ## The table of lines -/

/-- The offsets at which rows start that begin at the given offset. -/
def offsets (offset : Nat) : List (List Char) → List Nat
  | [] => []
  | row :: more => offset :: offsets (offset + byteLength row) more

theorem offsets_rows (offset : Nat) (cs : List Char) :
    offsets offset (rows cs) = offset :: lineStartsFrom offset cs := by
  induction cs generalizing offset with
  | nil => rfl
  | cons c cs ih =>
    have hrest := ih (offset + c.utf8Size)
    unfold rows lineStartsFrom
    dsimp only
    split
    · rw [offsets, byteLength_cons, byteLength_nil, Nat.add_zero, hrest]
    · obtain ⟨row, more, hrows⟩ := exists_rows cs
      rw [hrows, offsets] at hrest
      rw [hrows, List.modifyHead_cons, offsets, byteLength_cons, ← Nat.add_assoc,
        (List.cons.inj hrest).2]

/-- Between the offset of a row and the next one there is the row. -/
theorem cut_offsets (before : List Char) (l : List (List Char)) (k : Nat) :
    (offsets (byteLength before) l)[k]?.map (fun start =>
      let stop := (offsets (byteLength before) l)[k + 1]?.getD (byteLength (before ++ l.flatten))
      takeBytes (stop - start) (dropBytes start (before ++ l.flatten))) = l[k]? := by
  induction l generalizing before k with
  | nil => rfl
  | cons row more ih =>
    cases k with
    | zero =>
      have hstop : (offsets (byteLength before + byteLength row) more)[0]?.getD
          (byteLength (before ++ (row ++ more.flatten))) = byteLength before + byteLength row := by
        cases more with
        | nil => simp [offsets]
        | cons _ _ => rfl
      have hdrop := dropBytes_append before (row ++ more.flatten) 0
      simp only [Nat.add_zero, dropBytes_zero] at hdrop
      simp only [offsets, List.getElem?_cons_zero, List.getElem?_cons_succ, Option.map_some,
        List.flatten_cons, hstop, hdrop, Nat.add_sub_cancel_left, takeBytes_byteLength]
    | succ k =>
      have hrest := ih (before ++ row) k
      rw [byteLength_append, List.append_assoc] at hrest
      exact hrest

/-- The table gives the lines of the text, counted from 1. -/
theorem line?_eq_getElem?_lines (s : Source) (index : Nat) :
    s.line? (index + 1) = (lines s.text)[index]? := by
  have hcut := cut_offsets [] (rows s.text) index
  simp only [byteLength_nil, offsets_rows, List.nil_append, flatten_rows] at hcut
  rw [lines_eq_map_rows, List.getElem?_map, ← hcut]
  simp only [line?, lineStarts]
  generalize (0 :: lineStartsFrom 0 s.text)[index]? = start
  cases start <;> rfl

/-! ## Places in a text -/

/-- The text from a place on, up to the end of the line. -/
def restOfLine (cs : List Char) : List Char := cs.takeWhile fun c => !isLineEnd c

theorem exists_lines (cs : List Char) : ∃ more, lines cs = restOfLine cs :: more := by
  induction cs with
  | nil => exact ⟨[], rfl⟩
  | cons c cs ih =>
    unfold lines restOfLine
    split
    · next hends =>
      rw [List.takeWhile_cons_of_neg (by simp [isLineEnd_of_endsLine hends])]
      exact ⟨_, rfl⟩
    · next hends =>
      obtain ⟨more, hlines⟩ := ih
      split
      · next hc =>
        obtain ⟨ds, rfl⟩ := head?_of_isLineEnd hc (Bool.eq_false_iff.mpr hends)
        rw [List.takeWhile_cons_of_neg (by simp [hc])]
        exact ⟨_, rfl⟩
      · next hc =>
        rw [List.takeWhile_cons_of_pos (by simpa using hc), hlines]
        exact ⟨more, rfl⟩

theorem restOfLine_append {before : List Char} (h : ∀ c ∈ before, isLineEnd c = false)
    (ahead : List Char) : restOfLine (before ++ ahead) = before ++ restOfLine ahead :=
  List.takeWhile_append_of_pos fun c hc => by simp [h c hc]

/-- Moving along a text leads to a place in the same line or in a later one. -/
theorem after_eq (p : Position) (before : List Char) {ahead : List Char}
    (hahead : ∀ c ∈ ahead.head?, isLineEnd c = false) :
    (p.after ahead.head? before = ⟨p.line, p.col + before.length⟩ ∧
      ∀ c ∈ before, isLineEnd c = false) ∨
    ∃ later front, p.after ahead.head? before = ⟨p.line + 1 + later, 1 + front.length⟩ ∧
      (lines (before ++ ahead))[1 + later]? = some (front ++ restOfLine ahead) := by
  induction before generalizing p with
  | nil => exact .inl ⟨rfl, nofun⟩
  | cons c cs ih =>
    rw [List.cons_append]
    unfold lines
    rw [Position.after, ← List.head?_append]
    split
    · next hends =>
      refine .inr ?_
      simp only [Nat.add_comm 1, List.getElem?_cons_succ, Position.next, hends, if_true]
      rcases ih ⟨p.line + 1, 1⟩ with ⟨hp, hcs⟩ | ⟨later, front, hp, hline⟩
      · obtain ⟨more, hlines⟩ := exists_lines (cs ++ ahead)
        refine ⟨0, cs, ?_, ?_⟩
        · rw [hp, Nat.add_comm 1]
        · rw [hlines, restOfLine_append hcs]
          rfl
      · refine ⟨1 + later, front, ?_, ?_⟩
        · rw [hp, Nat.add_assoc (p.line + 1), Nat.add_comm 1 front.length]
        · exact hline
    · next hends =>
      rw [Bool.not_eq_true] at hends
      simp only [Position.next, hends, Bool.false_eq_true, if_false]
      split
      · next hc =>
        -- the line feed belongs to the text before the place, so the line ends there
        have hfeed : ∃ ds, cs = '\n' :: ds := by
          obtain ⟨ds, hds⟩ := head?_of_isLineEnd hc hends
          cases cs with
          | nil =>
            have hline := hahead '\n' (by rw [show ahead = _ from hds]; rfl)
            exact absurd hline (by decide)
          | cons d es =>
            obtain ⟨rfl, -⟩ := List.cons.inj hds
            exact ⟨es, rfl⟩
        obtain ⟨ds, rfl⟩ := hfeed
        rcases ih ⟨p.line, p.col + 1⟩ with ⟨-, hcs⟩ | hlater
        · exact absurd (hcs '\n' List.mem_cons_self) (by decide)
        · exact .inr hlater
      · next hc =>
        rw [Bool.not_eq_true] at hc
        rcases ih ⟨p.line, p.col + 1⟩ with ⟨hp, hcs⟩ | ⟨later, front, hp, hline⟩
        · refine .inl ⟨?_, List.forall_mem_cons.mpr ⟨hc, hcs⟩⟩
          rw [hp, List.length_cons, Nat.add_assoc, Nat.add_comm 1]
        · refine .inr ⟨later, front, hp, ?_⟩
          obtain ⟨more, hlines⟩ := exists_lines (cs ++ ahead)
          rw [Nat.add_comm 1, hlines] at hline ⊢
          exact hline

/-- The position of a place that is not within a line end leads to the line that the place is in.
    The column counts the characters of the line before the place, and the rest of the line follows
    it. -/
theorem getElem?_lines_positionAt {s : Source} {before ahead : List Char}
    (htext : s.text = before ++ ahead) (hahead : ∀ c ∈ ahead.head?, isLineEnd c = false) :
    ∃ index front, s.positionAt (byteLength before) = ⟨index + 1, front.length + 1⟩ ∧
      (lines s.text)[index]? = some (front ++ restOfLine ahead) := by
  have hplace : s.positionAt (byteLength before) = Position.first.after ahead.head? before := by
    have hmoved : (s.positionAt (byteLength [])).after ahead.head? before =
        s.positionAt (byteLength [] + byteLength before) :=
      positionAt_after (by simpa using htext)
    rwa [byteLength_nil, Nat.zero_add, positionAt_zero, eq_comm] at hmoved
  rw [hplace, htext]
  rcases after_eq .first before hahead with ⟨hp, hbefore⟩ | ⟨later, front, hp, hline⟩
  · obtain ⟨more, hlines⟩ := exists_lines (before ++ ahead)
    refine ⟨0, before, ?_, ?_⟩
    · rw [hp, Nat.add_comm before.length]
      rfl
    · rw [hlines, restOfLine_append hbefore]
      rfl
  · refine ⟨1 + later, front, ?_, hline⟩
    rw [hp, Nat.add_comm front.length, Nat.add_comm (1 + later), ← Nat.add_assoc]
    rfl

end Source

end TierScript
