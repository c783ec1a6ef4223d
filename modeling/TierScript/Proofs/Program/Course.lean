import TierScript.Program.Feed
import TierScript.Proofs.Token.Partition
import TierScript.Proofs.Token.Trivia

/-!
# The reader behind a feed

A parser takes its tokens from a feed, and a feed has no place in the text. The reader that the
tokens come from has one: it goes on behind a token that is taken, and back to its start if the
token is only looked at and given back.

* `Session.Follows`: the reader as it may stand when certain tokens of the text are left.
* `Session.Follows.after`: from there the tokens can be taken that are left.
* `Session.Follows.stop_lt`: where fewer tokens are left, the reader stands at a larger offset.
-/

namespace TierScript.Reader

open Text

variable {r r' : Reader} {t : Token} {ts : List Token} {stop : Except Fault Token}

/-! ## Offsets of tokens -/

theorem step_offset (h : r.step = (.ok t, r')) : r'.offset = r.stop := by
  unfold step at h
  dsimp only at h
  split at h
  · cases h
  · cases h
    rfl

theorem Skips.stop_le (h : Skips r r') : r.stop ≤ r'.stop := by
  induction h with
  | here => exact Nat.le_refl _
  | trivia hstep _ ih =>
    have hoffset := step_offset hstep
    simp only [Reader.stop] at hoffset ih ⊢
    omega

/-- A token starts where the reader stands, or later, and the reader then stands at its end. -/
theorem next_stop (h : r.next = (.ok t, r')) :
    r.stop ≤ t.offset ∧ r'.stop = t.offset + byteLength t.lexeme := by
  have hholds := next_holds h
  obtain ⟨r₁, hskips, hnext, -⟩ := r.next_eq_step_skips
  have hoffset := step_offset (hnext ▸ h)
  have hle := hskips.stop_le
  rw [hholds.offset, hholds.lexeme]
  exact ⟨by omega, rfl⟩

/-- Giving a token back, the reader stands at its start again. -/
theorem unread_stop (h : r.Holds t) : (r.unread t).stop = t.offset := by
  rw [Reader.stop, unread_held h, h.offset]
  rfl

/-- The tokens that a reader returns are there, and start where it stands, or later. -/
theorem Returns.offset_le (h : r.Returns ts stop) :
    ∀ t ∈ ts, r.stop ≤ t.offset ∧ t.lexeme ≠ [] := by
  induction h with
  | stop => exact nofun
  | @token r r' t ts stop hnext ht _ ih =>
    obtain ⟨hle, hstop⟩ := next_stop hnext
    intro u hu
    obtain rfl | hu := List.mem_cons.mp hu
    · exact ⟨hle, (next_holds hnext).lexeme_ne_nil ht⟩
    · obtain ⟨hlater, hne⟩ := ih u hu
      exact ⟨by omega, hne⟩

/-! ## Tapes -/

namespace Tape

variable {tape tape' : Tape}

/-- One token fewer is ahead after it was taken, and as many as before if it is given back. -/
theorem next_token (h : tape.perform .next = (.token t, tape')) :
    tape'.ahead = tape.ahead.tail ∧ tape'.stop = tape.stop ∧
      (tape'.perform .unread).2.ahead = tape.ahead ∧
      (tape'.perform .unread).2.stop = tape.stop ∧ ∀ u ∈ tape.ahead.head?, u = t := by
  obtain ⟨ahead, stop, last, held⟩ := tape
  cases ahead with
  | cons u us =>
    cases h
    exact ⟨rfl, rfl, rfl, rfl, fun _ hu => (Option.mem_some.mp hu).symm⟩
  | nil =>
    cases stop with
    | ok e =>
      cases h
      exact ⟨rfl, rfl, rfl, rfl, nofun⟩
    | error f => cases h

end Tape

/-! ## Sessions -/

namespace Session

/-- The reader as it may stand when all tokens of the text but the given ones are taken: it has
    taken one after the other, or looked at one and given it back. The token at the end of the text
    can be taken any number of times. -/
inductive Follows (text : List Char) : Session → List Token → Prop where
  | start : Follows text (start text true) (Feed.ofText text).items
  | take {s s' : Session} {t : Token} {ts : List Token} : Follows text s ts →
      s.perform .next = (.token t, s') → Follows text s' ts.tail
  | look {s s' : Session} {t : Token} {ts : List Token} : Follows text s ts →
      s.perform .next = (.token t, s') → Follows text (s'.perform .unread).2 ts

namespace Follows

variable {text : List Char} {s s' : Session} {taken : List Token}

/-- The reader stands where a tape with these tokens does. -/
theorem plays (h : s.Follows text ts) :
    ∃ tape, Plays ⟨"", text⟩ s tape ∧ tape.ahead = ts ∧ tape.stop = (Feed.ofText text).stop := by
  induction h with
  | start => exact ⟨_, plays_start (returns_readAll (ofText text true)), rfl, rfl⟩
  | @take s s' t ts _ hnext ih =>
    obtain ⟨tape, hplays, rfl, hstop⟩ := ih
    obtain ⟨hanswer, hafter⟩ := hplays.next
    rw [hnext] at hanswer hafter
    obtain ⟨hahead, hstop', -⟩ := Tape.next_token (Prod.ext hanswer.symm rfl)
    exact ⟨_, hafter, hahead, hstop'.trans hstop⟩
  | @look s s' t ts _ hnext ih =>
    obtain ⟨tape, hplays, rfl, hstop⟩ := ih
    obtain ⟨hanswer, hafter⟩ := hplays.next
    rw [hnext] at hanswer hafter
    obtain ⟨-, -, hahead, hstop', -⟩ := Tape.next_token (Prod.ext hanswer.symm rfl)
    exact ⟨_, hafter.unread.2, hahead, hstop'.trans hstop⟩

/-- The next token is the first of those that are left. -/
theorem next (h : s.Follows text (t :: ts)) : ∃ s', s.perform .next = (.token t, s') := by
  obtain ⟨tape, hplays, hahead, -⟩ := h.plays
  have hanswer := hplays.next.1
  simp only [Tape.perform, hahead] at hanswer
  exact ⟨_, Prod.ext hanswer rfl⟩

theorem eq_of_next (h : s.Follows text ts) (hnext : s.perform .next = (.token t, s')) :
    ∀ u ∈ ts.head?, u = t := by
  obtain ⟨tape, hplays, rfl, -⟩ := h.plays
  have hanswer := hplays.next.1
  rw [hnext] at hanswer
  exact (Tape.next_token (Prod.ext hanswer.symm rfl)).2.2.2.2

/-- The tokens that are left can be taken. -/
theorem after (h : s.Follows text (taken ++ ts)) :
    (s.after (List.replicate taken.length .next)).Follows text ts := by
  induction taken generalizing s with
  | nil => exact h
  | cons t taken ih =>
    obtain ⟨s', hnext⟩ := h.next
    have hrest := ih (h.take hnext)
    rw [List.length_cons, List.replicate_succ, Session.after, List.foldl_cons, hnext]
    exact hrest

/-- The tokens that are not left end where the reader stands, or before. -/
theorem behind (h : s.Follows text ts) :
    ∃ taken, (Feed.ofText text).items = taken ++ ts ∧
      ∀ t ∈ taken, t.offset + byteLength t.lexeme ≤ s.reader.stop := by
  induction h with
  | start => exact ⟨[], rfl, nofun⟩
  | @take s s' t ts hfollows hnext ih =>
    obtain ⟨taken, hitems, hbehind⟩ := ih
    obtain ⟨hle, hstop⟩ := next_stop (perform_next_token hnext).1
    have hearlier : ∀ u ∈ taken, u.offset + byteLength u.lexeme ≤ s'.reader.stop := by
      intro u hu
      have := hbehind u hu
      omega
    cases ts with
    | nil => exact ⟨taken, hitems, hearlier⟩
    | cons u us =>
      obtain rfl : u = t := hfollows.eq_of_next hnext u rfl
      refine ⟨taken ++ [u], by rw [hitems]; simp, ?_⟩
      intro v hv
      obtain hv | hv := List.mem_append.mp hv
      · exact hearlier v hv
      · obtain rfl : v = u := by simpa using hv
        omega
  | @look s s' t ts hfollows hnext ih =>
    obtain ⟨taken, hitems, hbehind⟩ := ih
    obtain ⟨hread, hlast⟩ := perform_next_token hnext
    obtain ⟨hle, -⟩ := next_stop hread
    have hback : (s'.perform .unread).2.reader.stop = t.offset := by
      simp only [Session.perform, hlast]
      exact unread_stop (next_holds hread)
    refine ⟨taken, hitems, ?_⟩
    intro u hu
    have := hbehind u hu
    omega

/-- Where fewer tokens are left, the reader stands at a larger offset. -/
theorem stop_lt (h : s.Follows text (taken ++ ts)) (h' : s'.Follows text ts) (hne : taken ≠ []) :
    s.reader.stop < s'.reader.stop := by
  obtain ⟨tape, hplays, hahead, -⟩ := h.plays
  obtain ⟨front, hitems, -⟩ := h.behind
  obtain ⟨front', hitems', hbehind⟩ := h'.behind
  obtain ⟨t, rest, rfl⟩ := List.exists_cons_of_ne_nil hne
  have hfront : front' = front ++ t :: rest := by
    rw [hitems, ← List.append_assoc] at hitems'
    exact (List.append_cancel_right hitems').symm
  have hin : t ∈ tape.ahead := by
    rw [hahead]
    exact List.mem_cons_self
  obtain ⟨hle, hchars⟩ := hplays.returns.offset_le t hin
  have hend := hbehind t (by rw [hfront]; exact List.mem_append_right _ List.mem_cons_self)
  have hpos : 0 < byteLength t.lexeme := by
    obtain ⟨c, cs, hlexeme⟩ := List.exists_cons_of_ne_nil hchars
    rw [hlexeme, byteLength_cons]
    exact Nat.add_pos_left c.utf8Size_pos _
  omega

end Follows

end Session

end TierScript.Reader
