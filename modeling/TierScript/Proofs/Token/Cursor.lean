import Mathlib.Data.List.Induction
import TierScript.Proofs.Token.Reading
import TierScript.Token.Session

/-!
# Where a reader stands

A reader keeps the byte offset, the line and the column of the last token, moves them along with
every token, and gives back any number of bytes. Here its state is compared with the text as a
whole: with the boundaries between the characters of its UTF-8 form, and with the table of its
lines.

* `Text.slice?`: a part of a text by byte offsets, which exists only between boundaries.
* `Source.positionAt`: the line and the column of an offset, read off the table of lines.
* `Session.cursor_exact`: after any operations, a reader stands between two boundaries, its line and
  column are those of the table, giving a token back and reading again changes nothing, and the end
  of the text or a fault is met again and again.
-/

namespace TierScript

/-! ## Boundaries -/

namespace Text

/-- Whether a byte offset lies between two characters, or at one of the ends of the text. -/
def isBoundary (text : List Char) (n : Nat) : Bool := byteLength (takeBytes n text) == n

/-- The characters between two byte offsets. There are none if one of the offsets lies within a
    character or outside the text, or if they are in the wrong order. -/
def slice? (text : List Char) (start stop : Nat) : Option (List Char) :=
  if start ≤ stop ∧ isBoundary text start ∧ isBoundary text stop then
    some (takeBytes (stop - start) (dropBytes start text))
  else none

/-- `k` is the last boundary that is not after the byte offset `n`. -/
structure LastBoundary (text : List Char) (n k : Nat) : Prop where
  boundary : isBoundary text k = true
  le : k ≤ n
  last : ∀ i, isBoundary text i = true → i ≤ n → i ≤ k

theorem takeBytes_append (before after : List Char) (n : Nat) :
    takeBytes (byteLength before + n) (before ++ after) = before ++ takeBytes n after := by
  induction before with
  | nil => simp
  | cons c cs ih =>
    have hle : c.utf8Size ≤ c.utf8Size + byteLength cs + n := by omega
    have hsub : c.utf8Size + byteLength cs + n - c.utf8Size = byteLength cs + n := by omega
    simp only [List.cons_append, byteLength_cons, takeBytes, hle, if_true, hsub, ih]

theorem dropBytes_append (before after : List Char) (n : Nat) :
    dropBytes (byteLength before + n) (before ++ after) = dropBytes n after := by
  induction before with
  | nil => simp
  | cons c cs ih =>
    have hle : c.utf8Size ≤ c.utf8Size + byteLength cs + n := by omega
    have hsub : c.utf8Size + byteLength cs + n - c.utf8Size = byteLength cs + n := by omega
    simp only [List.cons_append, byteLength_cons, dropBytes, hle, if_true, hsub, ih]

theorem takeBytes_append_of_le {n : Nat} {before : List Char} (after : List Char)
    (h : n ≤ byteLength before) : takeBytes n (before ++ after) = takeBytes n before := by
  induction before generalizing n with
  | nil =>
    obtain rfl : n = 0 := Nat.le_zero.mp h
    cases after with
    | nil => rfl
    | cons c cs => simp [takeBytes, Nat.ne_of_gt c.utf8Size_pos]
  | cons c cs ih =>
    rw [byteLength_cons] at h
    simp only [List.cons_append, takeBytes]
    split
    · rw [ih (by omega)]
    · rfl

@[simp] theorem takeBytes_zero (cs : List Char) : takeBytes 0 cs = [] := by
  cases cs with
  | nil => rfl
  | cons c cs => simp [takeBytes, Nat.ne_of_gt c.utf8Size_pos]

@[simp] theorem dropBytes_zero (cs : List Char) : dropBytes 0 cs = cs := by
  cases cs with
  | nil => rfl
  | cons c cs => simp [dropBytes, Nat.ne_of_gt c.utf8Size_pos]

theorem takeBytes_byteLength (before after : List Char) :
    takeBytes (byteLength before) (before ++ after) = before := by
  simpa using takeBytes_append before after 0

theorem isBoundary_iff {text : List Char} {n : Nat} :
    isBoundary text n = true ↔ ∃ before after, text = before ++ after ∧ n = byteLength before := by
  rw [isBoundary, beq_iff_eq]
  constructor
  · intro h
    exact ⟨takeBytes n text, dropBytes n text, (takeBytes_append_dropBytes n text).symm, h.symm⟩
  · rintro ⟨before, after, rfl, rfl⟩
    rw [takeBytes_byteLength]

theorem isBoundary_append (before after : List Char) :
    isBoundary (before ++ after) (byteLength before) = true :=
  isBoundary_iff.mpr ⟨before, after, rfl, rfl⟩

/-- The part between two boundaries. -/
theorem slice?_append (before part after : List Char) :
    slice? (before ++ part ++ after) (byteLength before) (byteLength before + byteLength part) =
      some part := by
  have hstart : isBoundary (before ++ part ++ after) (byteLength before) = true := by
    rw [List.append_assoc]
    exact isBoundary_append before (part ++ after)
  have hstop : isBoundary (before ++ part ++ after) (byteLength before + byteLength part) = true :=
    byteLength_append before part ▸ isBoundary_append (before ++ part) after
  have hpart : takeBytes (byteLength before + byteLength part - byteLength before)
      (dropBytes (byteLength before) (before ++ part ++ after)) = part := by
    have hdrop := dropBytes_append before (part ++ after) 0
    simp only [Nat.add_zero, dropBytes_zero] at hdrop
    rw [Nat.add_sub_cancel_left, List.append_assoc, hdrop, takeBytes_byteLength]
  rw [slice?, if_pos ⟨Nat.le_add_right _ _, hstart, hstop⟩, hpart]

/-- Two boundaries of which the second is not before the first cut a text in three. -/
theorem exists_append_of_boundaries {text before after : List Char} {i : Nat}
    (htext : text = before ++ after) (hi : isBoundary text i = true) (hle : byteLength before ≤ i) :
    ∃ part rest, after = part ++ rest ∧ i = byteLength before + byteLength part := by
  rw [isBoundary, beq_iff_eq] at hi
  obtain ⟨k, rfl⟩ := Nat.exists_eq_add_of_le hle
  rw [htext, takeBytes_append, byteLength_append] at hi
  exact ⟨takeBytes k after, dropBytes k after, (takeBytes_append_dropBytes k after).symm, hi.symm⟩

/-- No longer part at the front fits. -/
theorem byteLength_le_takeBytes {n : Nat} (part rest : List Char) (h : byteLength part ≤ n) :
    byteLength part ≤ byteLength (takeBytes n (part ++ rest)) := by
  obtain ⟨k, rfl⟩ := Nat.exists_eq_add_of_le h
  rw [takeBytes_append, byteLength_append]
  exact Nat.le_add_right _ _

/-- Taking bytes from a boundary on stops at the last boundary within reach. -/
theorem lastBoundary_takeBytes (before after : List Char) (n : Nat) :
    LastBoundary (before ++ after) (byteLength before + n)
      (byteLength before + byteLength (takeBytes n after)) where
  boundary := by
    have hsplit := isBoundary_append (before ++ takeBytes n after) (dropBytes n after)
    rwa [List.append_assoc, takeBytes_append_dropBytes, byteLength_append] at hsplit
  le := Nat.add_le_add_left (byteLength_takeBytes_le n after) _
  last i hi hle := by
    rcases Nat.le_total i (byteLength before) with hbefore | hafter
    · exact Nat.le_trans hbefore (Nat.le_add_right _ _)
    · obtain ⟨part, rest, rfl, rfl⟩ := exists_append_of_boundaries rfl hi hafter
      have hpart := byteLength_le_takeBytes part rest (show byteLength part ≤ n by omega)
      omega

end Text

open Text

/-! ## Positions of offsets -/

namespace Source

/-- The starts of lines that are not after a byte offset. -/
def startsUpTo (s : Source) (offset : Nat) : List Nat := s.lineStarts.filter (· ≤ offset)

/-- The position of a byte offset: the line is the number of lines that start at it or before, and
    the column counts the characters from the last of these starts on. -/
def positionAt (s : Source) (offset : Nat) : Position :=
  let start := (s.startsUpTo offset).getLastD 0
  ⟨(s.startsUpTo offset).length, 1 + (takeBytes (offset - start) (dropBytes start s.text)).length⟩

theorem lt_of_mem_lineStartsFrom {offset n : Nat} {cs : List Char}
    (h : n ∈ lineStartsFrom offset cs) : offset < n := by
  induction cs generalizing offset with
  | nil => cases h
  | cons c cs ih =>
    have hpos := c.utf8Size_pos
    simp only [lineStartsFrom] at h
    split at h
    · rcases List.mem_cons.mp h with rfl | h
      · omega
      · have := ih h
        omega
    · have := ih h
      omega

theorem filter_lineStartsFrom {offset n : Nat} (h : n ≤ offset) (cs : List Char) :
    (lineStartsFrom offset cs).filter (· ≤ n) = [] := by
  refine List.filter_eq_nil_iff.mpr fun k hk => ?_
  have := lt_of_mem_lineStartsFrom hk
  simp only [decide_eq_true_eq]
  omega

/-- The lines of a text are those that start in its first part and those that start later. -/
theorem lineStartsFrom_append (offset : Nat) (before after : List Char) :
    ∃ starts, lineStartsFrom offset (before ++ after) =
        starts ++ lineStartsFrom (offset + byteLength before) after ∧
      ∀ n ∈ starts, n ≤ offset + byteLength before := by
  induction before generalizing offset with
  | nil => exact ⟨[], by simp, nofun⟩
  | cons c cs ih =>
    obtain ⟨starts, hstarts, hle⟩ := ih (offset + c.utf8Size)
    rw [Nat.add_assoc] at hstarts hle
    simp only [List.cons_append, lineStartsFrom, byteLength_cons, hstarts]
    split
    · refine ⟨(offset + c.utf8Size) :: starts, rfl, ?_⟩
      intro n hn
      rcases List.mem_cons.mp hn with rfl | hn
      · omega
      · exact hle n hn
    · exact ⟨starts, rfl, hle⟩

section

variable {s : Source} {before after : List Char} {c : Char}

/-- One character further there is one more line if the character ends a line. -/
theorem startsUpTo_next (htext : s.text = before ++ c :: after) :
    s.startsUpTo (byteLength before + c.utf8Size) =
      s.startsUpTo (byteLength before) ++
        if endsLine c after.head? then [byteLength before + c.utf8Size] else [] := by
  obtain ⟨starts, hstarts, hle⟩ := lineStartsFrom_append 0 before (c :: after)
  rw [Nat.zero_add] at hstarts hle
  have hkeep (m : Nat) (hm : byteLength before ≤ m) : starts.filter (· ≤ m) = starts :=
    List.filter_eq_self.mpr fun n hn => by simpa using Nat.le_trans (hle n hn) hm
  have hpos := c.utf8Size_pos
  unfold startsUpTo lineStarts
  rw [htext, hstarts, List.filter_cons_of_pos (by simp), List.filter_cons_of_pos (by simp),
    List.filter_append, List.filter_append, hkeep _ (Nat.le_add_right _ _), hkeep _ (Nat.le_refl _)]
  have hlater (m : Nat) (hm : m ≤ byteLength before + c.utf8Size) :=
    filter_lineStartsFrom hm after
  simp only [lineStartsFrom]
  split
  · rw [List.filter_cons_of_pos (by simp), List.filter_cons_of_neg (by simp; omega),
      hlater _ (Nat.le_refl _), hlater _ (Nat.le_add_right _ _)]
    simp
  · rw [hlater _ (Nat.le_refl _), hlater _ (Nat.le_add_right _ _)]
    simp

theorem startsUpTo_zero (s : Source) : s.startsUpTo 0 = [0] := by
  rw [startsUpTo, lineStarts, List.filter_cons_of_pos (by simp),
    filter_lineStartsFrom (Nat.le_refl 0)]

/-- The last start of a line that is not after a boundary is a boundary itself. -/
theorem exists_line (htext : s.text = before ++ after) :
    ∃ earlier line, before = earlier ++ line ∧
      (s.startsUpTo (byteLength before)).getLastD 0 = byteLength earlier := by
  induction before using List.reverseRecOn generalizing after with
  | nil => exact ⟨[], [], rfl, by simp [startsUpTo_zero]⟩
  | append_singleton before c ih =>
    rw [List.append_assoc, List.singleton_append] at htext
    have hstarts := startsUpTo_next htext
    rw [show byteLength (before ++ [c]) = byteLength before + c.utf8Size by simp, hstarts]
    split
    · exact ⟨before ++ [c], [], by simp, by simp⟩
    · obtain ⟨earlier, line, hbefore, hlast⟩ := ih htext
      exact ⟨earlier, line ++ [c], by simp [hbefore], by simpa using hlast⟩

theorem positionAt_zero (s : Source) : s.positionAt 0 = .first := by
  simp [positionAt, startsUpTo_zero, Position.first]

/-- The position of a boundary, given where its line starts. -/
theorem positionAt_eq {earlier line : List Char} (htext : s.text = earlier ++ line ++ after)
    (hlast : (s.startsUpTo (byteLength (earlier ++ line))).getLastD 0 = byteLength earlier) :
    s.positionAt (byteLength (earlier ++ line)) =
      ⟨(s.startsUpTo (byteLength (earlier ++ line))).length, 1 + line.length⟩ := by
  have hdrop := dropBytes_append earlier (line ++ after) 0
  simp only [Nat.add_zero, dropBytes_zero] at hdrop
  have hline : takeBytes (byteLength (earlier ++ line) - byteLength earlier)
      (dropBytes (byteLength earlier) s.text) = line := by
    rw [htext, List.append_assoc, hdrop, byteLength_append, Nat.add_sub_cancel_left,
      takeBytes_byteLength]
  simp only [positionAt, hlast, hline]

/-- The position one character further. -/
theorem positionAt_next (htext : s.text = before ++ c :: after) :
    s.positionAt (byteLength before + c.utf8Size) =
      (s.positionAt (byteLength before)).next (endsLine c after.head?) := by
  obtain ⟨earlier, line, rfl, hlast⟩ := exists_line htext
  have hhere := positionAt_eq htext hlast
  have hstarts := startsUpTo_next htext
  have hbytes : byteLength (earlier ++ line) + c.utf8Size =
      byteLength (earlier ++ line ++ [c]) := by rw [byteLength_append _ [c]]; rfl
  rw [hhere]
  rw [hbytes] at hstarts ⊢
  cases hends : endsLine c after.head? with
  | true =>
    rw [hends, if_pos rfl] at hstarts
    have hnext : s.text = (earlier ++ line ++ [c]) ++ [] ++ after := by simp [htext]
    have hthere := positionAt_eq hnext
    rw [List.append_nil, hstarts] at hthere
    rw [hthere (by simp)]
    simp [Position.next]
  | false =>
    rw [hends, if_neg (by decide), List.append_nil] at hstarts
    have hnext : s.text = earlier ++ (line ++ [c]) ++ after := by simp [htext]
    have hthere := positionAt_eq hnext
    rw [← List.append_assoc, hstarts] at hthere
    rw [hthere hlast]
    simp [Position.next, Nat.add_assoc]

/-- Moving along the characters leads from position to position. -/
theorem positionAt_after {held ahead : List Char} (htext : s.text = before ++ held ++ ahead) :
    (s.positionAt (byteLength before)).after ahead.head? held =
      s.positionAt (byteLength before + byteLength held) := by
  induction held generalizing before with
  | nil => rfl
  | cons c cs ih =>
    have hnext : s.text = before ++ c :: (cs ++ ahead) := by simp [htext]
    have hrest : s.text = (before ++ [c]) ++ cs ++ ahead := by simp [htext]
    have hmoved := ih hrest
    rw [byteLength_append, byteLength_cons, byteLength_nil, Nat.add_zero,
      positionAt_next hnext, List.head?_append] at hmoved
    rw [Position.after, hmoved, byteLength_cons, Nat.add_assoc]

end

end Source

/-! ## Counting characters -/

namespace Scan

/-- The outcome of a scan that counts no characters beyond the end of the text. -/
def Within (cs : List Char) (r : Except Misread (Kind × Nat)) : Prop :=
  ∀ k n, r = .ok (k, n) → n ≤ cs.length

theorem Within.ok {cs : List Char} {k : Kind} {n : Nat} (hn : n ≤ cs.length) :
    Within cs (.ok (k, n)) := by
  rintro _ _ ⟨⟩
  exact hn

theorem Within.error (cs : List Char) (m : Misread) : Within cs (.error m) := nofun

theorem Within.ite {cs : List Char} {p : Prop} [Decidable p] {a b : Except Misread (Kind × Nat)}
    (ha : p → Within cs a) (hb : ¬ p → Within cs b) : Within cs (if p then a else b) := by
  split
  · exact ha ‹_›
  · exact hb ‹_›

theorem Within.one (c : Char) (cs : List Char) (k : Kind) : Within (c :: cs) (.ok (k, 1)) :=
  .ok (Nat.le_add_left _ _)

theorem two_le_of_head {c d : Char} {cs : List Char} (h : cs.head? = some d) :
    2 ≤ (c :: cs).length := by
  cases cs with
  | nil => cases h
  | cons _ _ => exact Nat.le_add_left _ _

theorem Within.oneOrTwo (c : Char) {cs : List Char} {second : Char} {single double : Kind} :
    Within (c :: cs) (.ok (Scan.oneOrTwo cs second single double)) := by
  unfold Scan.oneOrTwo
  split
  · next h => exact .ok (two_le_of_head h)
  · exact .one c cs single

theorem Within.takeWhile (p : Char → Bool) (cs : List Char) (k : Kind) :
    Within cs (.ok (k, (cs.takeWhile p).length)) :=
  .ok (List.takeWhile_prefix p).length_le

theorem commentEnd?_le {cs : List Char} {n : Nat} (h : commentEnd? cs = some n) :
    n ≤ cs.length := by
  induction cs generalizing n with
  | nil => cases h
  | cons c cs ih =>
    rw [commentEnd?] at h
    split at h
    · next hclose =>
      cases h
      exact two_le_of_head hclose.2
    · obtain ⟨k, hk, rfl⟩ := Option.map_eq_some_iff.mp h
      exact Nat.succ_le_succ (ih hk)

theorem stringLength_le {bytes count n : Nat} {cs : List Char}
    (h : stringLength bytes count cs = .ok n) : n ≤ count + cs.length + 1 := by
  fun_induction stringLength bytes count cs <;>
    simp only [List.length_nil, List.length_cons] <;> grind

theorem wordKind_le (word after : List Char) : (wordKind word after).2 ≤ after.length := by
  have harith (h : isArithName after = true) : 1 ≤ after.length := by
    cases after with
    | nil => cases h
    | cons _ _ => exact Nat.le_add_left _ _
  unfold wordKind
  grind

theorem scanWord_le (cs : List Char) : (scanWord cs).2 ≤ cs.length := by
  have hword := (List.takeWhile_prefix (l := cs) isWordPart).length_le
  have hextra := wordKind_le (cs.takeWhile isWordPart) (cs.drop (cs.takeWhile isWordPart).length)
  rw [List.length_drop] at hextra
  show (cs.takeWhile isWordPart).length +
    (wordKind (cs.takeWhile isWordPart) (cs.drop (cs.takeWhile isWordPart).length)).2 ≤ cs.length
  omega

end Scan

open Scan in
/-- No token reaches beyond the end of the text. -/
theorem scan_le (firstColumn : Bool) (cs : List Char) : Within cs (scan firstColumn cs) := by
  cases cs with
  | nil => exact .ok (Nat.le_refl _)
  | cons c cs =>
    unfold scan
    refine .ite (fun _ => .takeWhile isGap _ _) fun _ => ?_
    refine .ite (fun _ => .one c cs _) fun _ => ?_
    refine .ite (fun _ => .oneOrTwo c) fun _ => ?_
    refine .ite (fun _ => .ite (fun _ => .takeWhile _ _ _) fun _ => .one c cs _) fun _ => ?_
    iterate 6 refine .ite (fun _ => .one c cs _) fun _ => ?_
    iterate 2
      refine .ite (fun _ => .ite (fun h => .ok (two_le_of_head h)) fun _ => .error _ _) fun _ => ?_
    iterate 6 refine .ite (fun _ => .oneOrTwo c) fun _ => ?_
    iterate 2 refine .ite (fun _ => .one c cs _) fun _ => ?_
    refine .ite (fun _ => ?_) fun _ => ?_
    · refine .ite (fun _ => .takeWhile _ _ _) fun _ => ?_
      refine .ite (fun hdot => ?_) fun _ => .one c cs _
      have htwo : 2 ≤ (c :: cs).length := two_le_of_head hdot
      split
      · next n hend =>
        have hlength := commentEnd?_le hend
        rw [List.length_drop] at hlength
        rw [List.length_cons] at htwo
        exact .ok (by rw [List.length_cons]; omega)
      · exact .error _ _
    refine .ite (fun _ => ?_) fun _ => ?_
    · cases h : stringLength 0 0 cs with
      | error m => exact .error _ _
      | ok n =>
        have hlength := stringLength_le h
        exact .ok (by rw [List.length_cons]; omega)
    refine .ite (fun _ => .takeWhile _ _ _) fun _ => ?_
    exact .ite (fun _ => .ok (scanWord_le _)) fun _ => .error _ _

/-! ## Readers -/

namespace Reader

variable {source : Source} {before : List Char} {r r' : Reader} {t : Token} {f : Fault}

/-- The byte offset after what is kept of the last token. -/
def stop (r : Reader) : Nat := r.offset + byteLength r.held

/-- The reader stands in the text: what it keeps of the last token and what is ahead are parts of
    the text between boundaries, and its position is that of its offset. -/
structure Placed (source : Source) (r : Reader) : Prop where
  start : isBoundary source.text r.offset = true
  stop : isBoundary source.text r.stop = true
  held : slice? source.text r.offset r.stop = some r.held
  ahead : slice? source.text r.stop (byteLength source.text) = some r.ahead
  position : r.position = source.positionAt r.offset

/-- The reader has returned the token: scanning from its place on gives the kind and the number of
    characters of the token, none of them beyond the end of the text. -/
structure Holds (r : Reader) (t : Token) : Prop where
  scanned : scan (r.position.col == 1) (r.held ++ r.ahead) = .ok (t.kind, t.lexeme.length)
  lexeme : t.lexeme = r.held
  offset : t.offset = r.offset
  span : t.span = .ofText r.position r.held
  wanted : (r.skipTrivia && t.kind.isTrivia) = false

/-- The reader has returned the fault: nothing can be scanned from its place on, and the span of the
    fault is that of the text up to the last boundary of what the complaint is about. -/
structure Fails (source : Source) (r : Reader) (f : Fault) : Prop where
  held : r.held = []
  misread : ∃ extent part, scan (r.position.col == 1) r.ahead = .error ⟨f.complaint, extent⟩ ∧
    part = takeBytes extent r.ahead ∧ f.span = .ofText r.position part ∧
    slice? source.text r.offset (r.offset + byteLength part) = some part ∧
    LastBoundary source.text (r.offset + extent) (r.offset + byteLength part)

/-- The text is what is in front of the last token, what is kept of it, and what is ahead. -/
structure In (source : Source) (before : List Char) (r : Reader) : Prop where
  text : source.text = before ++ r.held ++ r.ahead
  offset : r.offset = byteLength before
  position : r.position = source.positionAt r.offset

theorem In.placed (h : r.In source before) : r.Placed source where
  start := by
    rw [h.text, h.offset, List.append_assoc]
    exact isBoundary_append _ _
  stop := by
    rw [h.text, Reader.stop, h.offset, ← byteLength_append]
    exact isBoundary_append _ _
  held := by
    rw [h.text, Reader.stop, h.offset]
    exact slice?_append _ _ _
  ahead := by
    have hslice := slice?_append (before ++ r.held) r.ahead []
    rw [List.append_nil, ← byteLength_append, byteLength_append before] at hslice
    rw [h.text, Reader.stop, h.offset]
    exact hslice
  position := h.position

theorem in_ofText (source : Source) (skipTrivia : Bool) :
    (ofText source.text skipTrivia).In source [] :=
  ⟨rfl, rfl, source.positionAt_zero.symm⟩

/-! ### Operations -/

@[simp] theorem commit_held (r : Reader) : r.commit.held = [] := rfl

@[simp] theorem commit_ahead (r : Reader) : r.commit.ahead = r.ahead := rfl

theorem In.commit (h : r.In source before) : r.commit.In source (before ++ r.held) where
  text := by simpa using h.text
  offset := by
    show r.offset + byteLength r.held = _
    rw [h.offset, byteLength_append]
  position := by
    show r.position.after r.ahead.head? r.held = source.positionAt (r.offset + byteLength r.held)
    rw [h.position, h.offset]
    exact Source.positionAt_after h.text

theorem In.step (h : r.In source before) : r.step.2.In source (before ++ r.held) := by
  have hcommit := h.commit
  unfold Reader.step
  dsimp only
  split
  · exact hcommit
  · refine ⟨?_, hcommit.offset, hcommit.position⟩
    rw [List.append_assoc, List.take_append_drop]
    simpa using hcommit.text

theorem In.pushBack (h : r.In source before) (n : Nat) : (r.pushBack n).In source before := by
  refine ⟨?_, h.offset, h.position⟩
  rw [h.text]
  simp only [Reader.pushBack, List.append_assoc]
  rw [← List.append_assoc (takeBytes _ _), takeBytes_append_dropBytes]

theorem In.lastBoundary_pushBack (h : r.In source before) (n : Nat) :
    LastBoundary source.text (r.offset + (byteLength r.held - n)) (r.pushBack n).stop := by
  have hlast := lastBoundary_takeBytes before (r.held ++ r.ahead) (byteLength r.held - n)
  have htake : takeBytes (byteLength r.held - n) (r.held ++ r.ahead) =
      takeBytes (byteLength r.held - n) r.held :=
    takeBytes_append_of_le r.ahead (Nat.sub_le _ _)
  rw [htake, ← List.append_assoc, ← h.text, ← h.offset] at hlast
  exact hlast

theorem pushBack_of_held (h : r.held = []) (n : Nat) : r.pushBack n = r := by
  cases r
  cases h
  rfl

theorem step_holds (h : r.step = (.ok t, r'))
    (hwanted : (r.skipTrivia && t.kind.isTrivia) = false) : r'.Holds t := by
  unfold step at h
  dsimp only at h
  split at h
  · cases h
  · next kind n hscan =>
    cases h
    have hn := scan_le _ _ _ _ hscan
    refine ⟨?_, rfl, rfl, rfl, hwanted⟩
    rw [List.take_append_drop, List.length_take, Nat.min_eq_left hn]
    exact hscan

theorem In.step_fails (h : r.In source before) (hstep : r.step = (.error f, r')) :
    r'.Fails source f := by
  have hcommit := h.commit
  unfold Reader.step at hstep
  dsimp only at hstep
  split at hstep
  · next m hscan =>
    cases hstep
    have htext : source.text = (before ++ r.held) ++ r.commit.ahead := by simpa using hcommit.text
    have hlast := lastBoundary_takeBytes (before ++ r.held) r.commit.ahead m.extent
    have hslice := slice?_append (before ++ r.held) (takeBytes m.extent r.commit.ahead)
      (dropBytes m.extent r.commit.ahead)
    rw [List.append_assoc, takeBytes_append_dropBytes] at hslice
    rw [← htext, ← hcommit.offset] at hlast hslice
    exact ⟨rfl, m.extent, _, hscan, rfl, rfl, hslice, hlast⟩
  · cases hstep

/-! ### Passing over trivia -/

/-- The second reader has passed over trivia only. -/
inductive Skips : Reader → Reader → Prop where
  | here {r : Reader} : Skips r r
  | trivia {r r' r'' : Reader} {t : Token} : r.step = (.ok t, r') → Skips r' r'' → Skips r r''

theorem Skips.in {r₁ : Reader} (h : Skips r r₁) (hr : r.In source before) :
    ∃ before', r₁.In source before' := by
  induction h generalizing before with
  | here => exact ⟨before, hr⟩
  | trivia hstep _ ih =>
    have hnext := hr.step
    rw [hstep] at hnext
    exact ih hnext

theorem nextWithin_eq_step {fuel : Nat} (hfuel : r.ahead.length < fuel) :
    ∃ r₁, Skips r r₁ ∧ r.nextWithin fuel = r₁.step ∧
      ∀ t r', r₁.step = (.ok t, r') → (r₁.skipTrivia && t.kind.isTrivia) = false := by
  induction fuel generalizing r with
  | zero => omega
  | succ fuel ih =>
    rw [nextWithin]
    cases hstep : r.step with
    | mk outcome r' =>
      cases outcome with
      | error f => exact ⟨r, .here, hstep.symm, by simp [hstep]⟩
      | ok t =>
        dsimp only
        cases hskip : r.skipTrivia && t.kind.isTrivia with
        | true =>
          have hkind : t.kind ≠ .eof := by
            intro hkind
            simp [hkind, Kind.isTrivia] at hskip
          obtain ⟨r₁, hskips, hnext, hwanted⟩ := ih (r := r') (by
            have := (step_ok hstep hkind).1
            omega)
          exact ⟨r₁, .trivia hstep hskips, hnext, hwanted⟩
        | false =>
          refine ⟨r, .here, hstep.symm, ?_⟩
          rintro _ _ heq
          cases hstep.symm.trans heq
          exact hskip

theorem next_eq_step_skips (r : Reader) :
    ∃ r₁, Skips r r₁ ∧ r.next = r₁.step ∧
      ∀ t r', r₁.step = (.ok t, r') → (r₁.skipTrivia && t.kind.isTrivia) = false :=
  nextWithin_eq_step (Nat.lt_succ_self _)

theorem In.next (h : r.In source before) : ∃ before', r.next.2.In source before' := by
  obtain ⟨r₁, hskips, hnext, -⟩ := r.next_eq_step_skips
  obtain ⟨before₁, h₁⟩ := hskips.in h
  rw [hnext]
  exact ⟨_, h₁.step⟩

theorem next_holds (h : r.next = (.ok t, r')) : r'.Holds t := by
  obtain ⟨r₁, -, hnext, hwanted⟩ := r.next_eq_step_skips
  rw [hnext] at h
  exact step_holds h (hwanted t r' h)

theorem In.next_fails (h : r.In source before) (hnext : r.next = (.error f, r')) :
    r'.Fails source f := by
  obtain ⟨r₁, hskips, heq, -⟩ := r.next_eq_step_skips
  obtain ⟨before₁, h₁⟩ := hskips.in h
  exact h₁.step_fails (heq ▸ hnext)

/-! ### Reading again -/

theorem next_of_step_ok (h : r.step = (.ok t, r'))
    (hwanted : (r.skipTrivia && t.kind.isTrivia) = false) : r.next = (.ok t, r') := by
  rw [next, nextWithin, h]
  simp [hwanted]

theorem next_of_step_error (h : r.step = (.error f, r')) : r.next = (.error f, r') := by
  rw [next, nextWithin, h]

/-- Giving a token back and reading again changes nothing. -/
theorem Holds.next_unread (h : r.Holds t) : (r.unread t).next = (.ok t, r) := by
  have hunread : r.unread t = { r with held := [], ahead := r.held ++ r.ahead } := by
    simp [unread, pushBack, h.lexeme]
  have hscan := h.scanned
  rw [h.lexeme] at hscan
  have hstep : (r.unread t).step = (.ok t, r) := by
    rw [hunread]
    simp only [step, commit, byteLength_nil, Nat.add_zero, Position.after, hscan, List.take_left,
      List.drop_left]
    obtain ⟨kind, lexeme, offset, span⟩ := t
    cases h.lexeme
    cases h.offset
    cases h.span
    rfl
  exact next_of_step_ok hstep (by rw [hunread]; exact h.wanted)

theorem Holds.rest_of_eof (h : r.Holds t) (ht : t.kind = .eof) : r.held ++ r.ahead = [] := by
  have hscan := h.scanned
  cases hrest : r.held ++ r.ahead with
  | nil => rfl
  | cons c cs =>
    rw [hrest] at hscan
    exact absurd ht (proper_scan_cons _ c cs _ _ hscan).1

theorem Holds.held_of_eof (h : r.Holds t) (ht : t.kind = .eof) : r.held = [] :=
  (List.append_eq_nil_iff.mp (h.rest_of_eof ht)).1

/-- The end of the text is met again and again. -/
theorem Holds.next_of_eof (h : r.Holds t) (ht : t.kind = .eof) : r.next = (.ok t, r) := by
  have hnext := h.next_unread
  rwa [unread, pushBack_of_held (h.held_of_eof ht)] at hnext

/-- A fault is met again and again. -/
theorem Fails.next (h : r.Fails source f) : r.next = (.error f, r) := by
  obtain ⟨extent, part, hscan, rfl, hspan, -, -⟩ := h.misread
  refine next_of_step_error ?_
  obtain ⟨held, ahead, offset, position, skipTrivia⟩ := r
  obtain ⟨complaint, span⟩ := f
  cases h.held
  cases hspan
  simp only [step, commit, byteLength_nil, Nat.add_zero, Position.after]
  dsimp only at hscan
  rw [hscan]
  rfl

/-- Whether an answer is the end of the text or a fault. -/
def Answer.isLast : Answer → Bool
  | .token t => t.kind = .eof
  | .fault _ => true
  | _ => false

end Reader

/-! ## Sequences of operations -/

namespace Reader.Session

variable {source : Source} {s s' : Session}

/-- A reader at the start of a text, before any operation. -/
def start (text : List Char) (skipTrivia : Bool) : Session := ⟨.ofText text skipTrivia, none⟩

/-- What the operations leave. -/
def after (s : Session) (ops : List Op) : Session := ops.foldl (fun s op => (s.perform op).2) s

/-- What holds of a reader in a text, whatever it has been asked to do. -/
structure Exact (source : Source) (s : Session) : Prop where
  placed : s.reader.Placed source
  /-- Giving back `n` bytes keeps what lies before the last boundary within reach. -/
  pushBack : ∀ n, LastBoundary source.text
    (s.reader.offset + (byteLength s.reader.held - n)) (s.reader.pushBack n).stop
  token : ∀ t s', s.perform .next = (.token t, s') → s'.reader.Holds t
  fault : ∀ f s', s.perform .next = (.fault f, s') → s'.reader.Fails source f
  /-- A token that is given back is read again, and leaves the same state. -/
  reread : ∀ t s', s.perform .next = (.token t, s') →
    (s'.perform .unread).2.perform .next = (.token t, s')
  /-- After the end of the text or a fault nothing changes any more. -/
  again : ∀ a s', s.perform .next = (a, s') → a.isLast = true →
    ∀ ops, s'.after ops = s' ∧ s'.perform .next = (a, s')

/-- The invariant of all operations: the reader stands somewhere in the text. -/
def Stands (source : Source) (s : Session) : Prop := ∃ before, s.reader.In source before

theorem Stands.perform (h : s.Stands source) (op : Op) : (s.perform op).2.Stands source := by
  obtain ⟨before, h⟩ := h
  cases op with
  | next =>
    obtain ⟨before', hnext⟩ := h.next
    unfold Session.perform
    dsimp only
    split
    · next heq => rw [heq] at hnext; exact ⟨before', hnext⟩
    · next heq => rw [heq] at hnext; exact ⟨before', hnext⟩
  | unread =>
    unfold Session.perform
    dsimp only
    split
    · exact ⟨before, h.pushBack _⟩
    · exact ⟨before, h⟩
  | pushBack n => exact ⟨before, h.pushBack n⟩

theorem Stands.after (h : s.Stands source) (ops : List Op) : (s.after ops).Stands source := by
  induction ops generalizing s with
  | nil => exact h
  | cons op ops ih => exact ih (h.perform op)

theorem perform_next_token {t : Token} (h : s.perform .next = (.token t, s')) :
    s.reader.next = (.ok t, s'.reader) ∧ s'.last = some t := by
  unfold perform at h
  dsimp only at h
  split at h
  · next heq => cases h; exact ⟨heq, rfl⟩
  · cases h

theorem perform_next_fault {f : Fault} (h : s.perform .next = (.fault f, s')) :
    s.reader.next = (.error f, s'.reader) ∧ s'.last = s.last := by
  unfold perform at h
  dsimp only at h
  split at h
  · cases h
  · next heq => cases h; exact ⟨heq, rfl⟩

/-- A reader that keeps nothing and whose next answer changes nothing stays as it is. -/
theorem after_of_next {a : Answer} (hheld : s.reader.held = []) (hnext : s.perform .next = (a, s))
    (ops : List Op) : s.after ops = s := by
  have hstill (op : Op) : (s.perform op).2 = s := by
    have hback (n : Nat) := pushBack_of_held hheld n
    cases op with
    | next => rw [hnext]
    | unread =>
      unfold perform
      dsimp only
      split
      · rw [unread, hback]
      · rfl
    | pushBack n => simp [perform, hback]
  induction ops with
  | nil => rfl
  | cons op ops ih => rw [after, List.foldl_cons, hstill]; exact ih

theorem Stands.exact (h : s.Stands source) : s.Exact source := by
  obtain ⟨before, h⟩ := h
  have hreread (t : Token) (s' : Session) (hnext : s.perform .next = (.token t, s')) :
      (s'.perform .unread).2.perform .next = (.token t, s') := by
    obtain ⟨hread, hlast⟩ := perform_next_token hnext
    have hagain := (next_holds hread).next_unread
    simp only [Session.perform, hlast, hagain]
    cases s'
    cases hlast
    rfl
  refine ⟨h.placed, h.lastBoundary_pushBack, ?_, ?_, hreread, ?_⟩
  · intro t s' hnext
    exact next_holds (perform_next_token hnext).1
  · intro f s' hnext
    exact h.next_fails (perform_next_fault hnext).1
  · intro a s' hnext hlast
    cases a with
    | token t =>
      obtain ⟨hread, hkept⟩ := perform_next_token hnext
      have hholds := next_holds hread
      have hkind : t.kind = .eof := of_decide_eq_true hlast
      have hagain : s'.perform .next = (.token t, s') := by
        simp only [Session.perform, hholds.next_of_eof hkind, ← hkept]
      exact fun ops => ⟨after_of_next (hholds.held_of_eof hkind) hagain ops, hagain⟩
    | fault f =>
      obtain ⟨hread, hkept⟩ := perform_next_fault hnext
      have hfails := h.next_fails hread
      have hagain : s'.perform .next = (.fault f, s') := by
        simp only [Session.perform, hfails.next]
      exact fun ops => ⟨after_of_next hfails.held hagain ops, hagain⟩
    | bytes n => cases hlast
    | nothing => cases hlast

/-- After any operations on a text, with or without its trivia, the reader stands between two
    boundaries at the position that the table of lines gives, can give back any number of bytes,
    reads a token again as it was, and stays at the end of the text or at a fault. -/
theorem cursor_exact (source : Source) (skipTrivia : Bool) (ops : List Op) :
    ((start source.text skipTrivia).after ops).Exact source :=
  have hstart : (start source.text skipTrivia).Stands source := ⟨[], in_ofText source skipTrivia⟩
  (hstart.after ops).exact

end Reader.Session

end TierScript
