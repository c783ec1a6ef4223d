import TierScript.Proofs.Token.Cursor

/-!
# Passing over trivia

A reader that passes over trivia returns what a reader of all tokens returns, without the trivia.

* `Reader.Returns r ts stop`: one token after another, a reader returns `ts` and then `stop`, which
  is the end of the text or a fault. It says the same of both kinds of readers.
* `Reader.Returns.skipping`: passing over trivia takes the trivia out of `ts`, and nothing else.
* `Reader.Tape`: a list of tokens on which the last one can be given back. It knows nothing of a
  text.
* `trivia_modes_agree`: a reader of either kind answers like the tape of its tokens, however often
  tokens are given back and read again, and the two tapes differ by the trivia.
-/

namespace TierScript

namespace Reader

open Token (solid)

variable {r r' : Reader} {t : Token} {ts : List Token} {stop : Except Fault Token}

/-! ## What a reader returns -/

/-- Whether nothing comes after an answer: it is the end of the text or a fault. -/
def isEnd : Except Fault Token → Bool
  | .ok t => t.kind = .eof
  | .error _ => true

/-- The reader returns the tokens `ts`, none of which is the end of the text, and then `stop`. -/
inductive Returns : Reader → List Token → Except Fault Token → Prop where
  | stop {r r' : Reader} {stop : Except Fault Token} : r.next = (stop, r') → isEnd stop = true →
      Returns r [] stop
  | token {r r' : Reader} {t : Token} {ts : List Token} {stop : Except Fault Token} :
      r.next = (.ok t, r') → t.kind ≠ .eof → Returns r' ts stop → Returns r (t :: ts) stop

theorem Returns.isEnd (h : r.Returns ts stop) : isEnd stop = true := by
  induction h with
  | stop _ hend => exact hend
  | token _ _ _ ih => exact ih

theorem Returns.ne_eof (h : r.Returns ts stop) : ∀ t ∈ ts, t.kind ≠ .eof := by
  induction h with
  | stop => exact nofun
  | token _ ht _ ih => exact List.forall_mem_cons.mpr ⟨ht, ih⟩

theorem Returns.unique {ts' : List Token} {stop' : Except Fault Token} (h : r.Returns ts stop)
    (h' : r.Returns ts' stop') : ts' = ts ∧ stop' = stop := by
  induction h generalizing ts' with
  | stop hnext hend =>
    cases h' with
    | stop hnext' =>
      cases hnext.symm.trans hnext'
      exact ⟨rfl, rfl⟩
    | token hnext' ht =>
      cases hnext.symm.trans hnext'
      exact absurd (of_decide_eq_true hend) ht
  | token hnext ht _ ih =>
    cases h' with
    | stop hnext' hend =>
      cases hnext.symm.trans hnext'
      exact absurd (of_decide_eq_true hend) ht
    | token hnext' _ hrest =>
      cases hnext.symm.trans hnext'
      obtain ⟨rfl, rfl⟩ := ih hrest
      exact ⟨rfl, rfl⟩

/-! ## Enough fuel -/

theorem step_ahead_le (h : r.step = (.ok t, r')) : r'.ahead.length ≤ r.ahead.length := by
  by_cases ht : t.kind = .eof
  · simp only [step, commit] at h
    split at h
    · cases h
    · cases h
      simp
  · exact Nat.le_of_lt (step_ok h ht).1

theorem Skips.ahead_le (h : Skips r r') : r'.ahead.length ≤ r.ahead.length := by
  induction h with
  | here => exact Nat.le_refl _
  | trivia hstep _ ih => exact Nat.le_trans ih (step_ahead_le hstep)

/-- Every token but the end leaves less of the text. -/
theorem next_ahead_lt (h : r.next = (.ok t, r')) (ht : t.kind ≠ .eof) :
    r'.ahead.length < r.ahead.length := by
  obtain ⟨r₁, hskips, hnext, -⟩ := r.next_eq_step_skips
  exact Nat.lt_of_lt_of_le (step_ok (hnext ▸ h) ht).1 hskips.ahead_le

theorem next_of_nil (h : r.ahead = []) : ∃ t r', r.next = (.ok t, r') ∧ t.kind = .eof := by
  obtain ⟨t, r', hstep, ht, -⟩ := step_of_nil h
  exact ⟨t, r', next_of_step_ok hstep (by simp [ht, Kind.isTrivia]), ht⟩

/-- Reading to the end gives what the reader returns. -/
theorem returns_readWithin {fuel : Nat} (hfuel : r.ahead.length ≤ fuel) :
    r.Returns (r.readWithin fuel).1 (r.readWithin fuel).2 := by
  induction fuel generalizing r with
  | zero =>
    obtain ⟨t, r', hnext, ht⟩ := next_of_nil (List.length_eq_zero_iff.mp (Nat.le_zero.mp hfuel))
    rw [readWithin, hnext]
    exact .stop hnext (decide_eq_true ht)
  | succ fuel ih =>
    rw [readWithin]
    cases hnext : r.next with
    | mk answer r' =>
      cases answer with
      | error f => exact .stop hnext rfl
      | ok t =>
        dsimp only
        by_cases ht : t.kind = .eof
        · rw [if_pos ht]
          exact .stop hnext (decide_eq_true ht)
        · rw [if_neg ht]
          have hlength := next_ahead_lt hnext ht
          exact .token hnext ht (ih (by omega))

theorem returns_readAll (r : Reader) : r.Returns r.readAll.1 r.readAll.2 :=
  returns_readWithin (by omega)

theorem Returns.readAll_eq (h : r.Returns ts stop) : r.readAll = (ts, stop) := by
  obtain ⟨hts, hstop⟩ := h.unique r.returns_readAll
  exact Prod.ext hts hstop

/-! ## Taking the trivia out -/

/-- Any two amounts of fuel that cover the rest of the text lead to the same token. -/
theorem nextWithin_congr {fuel fuel' : Nat} (h : r.ahead.length < fuel)
    (h' : r.ahead.length < fuel') : r.nextWithin fuel = r.nextWithin fuel' := by
  induction fuel generalizing r fuel' with
  | zero => omega
  | succ fuel ih =>
    obtain ⟨fuel', rfl⟩ := Nat.exists_eq_add_one.mpr (show 0 < fuel' by omega)
    rw [nextWithin, nextWithin]
    cases hstep : r.step with
    | mk answer r' =>
      cases answer with
      | error f => rfl
      | ok t =>
        dsimp only
        cases hskip : r.skipTrivia && t.kind.isTrivia with
        | false => rfl
        | true =>
          have ht : t.kind ≠ .eof := by
            intro ht
            simp [ht, Kind.isTrivia] at hskip
          have hlength := (step_ok hstep ht).1
          exact ih (by omega) (by omega)

/-- What is passed over does not matter for what is returned. -/
theorem next_of_trivia (hskip : r.skipTrivia = true) (hstep : r.step = (.ok t, r'))
    (ht : t.kind.isTrivia = true) : r.next = r'.next := by
  have hkind : t.kind ≠ .eof := by
    intro hkind
    simp [hkind, Kind.isTrivia] at ht
  have hlength := (step_ok hstep hkind).1
  rw [next, nextWithin, hstep]
  simp only [hskip, ht, Bool.and_self, if_true]
  exact nextWithin_congr hlength (Nat.lt_succ_self _)

theorem Returns.of_next_eq (h : r'.Returns ts stop) (heq : r.next = r'.next) :
    r.Returns ts stop := by
  cases h with
  | stop hnext hend => exact .stop (heq.trans hnext) hend
  | token hnext ht hrest => exact .token (heq.trans hnext) ht hrest

/-- A reader that passes over trivia takes the steps of one that does not. -/
theorem step_of_next {answer : Except Fault Token} (hskip : r.skipTrivia = false)
    (hnext : r.next = (answer, r')) :
    step { r with skipTrivia := true } = (answer, { r' with skipTrivia := true }) := by
  rw [step_skipTrivia, ← next_eq_step hskip, hnext]

/-- Passing over trivia takes the trivia out of what is returned, and nothing else. -/
theorem Returns.skipping (h : r.Returns ts stop) (hskip : r.skipTrivia = false) :
    Returns { r with skipTrivia := true } (solid ts) stop := by
  induction h with
  | @stop r r' stop hnext hend =>
    have hstep := step_of_next hskip hnext
    cases stop with
    | error f => exact .stop (next_of_step_error hstep) rfl
    | ok t =>
      have ht : t.kind = .eof := of_decide_eq_true hend
      exact .stop (next_of_step_ok hstep (by simp [ht, Kind.isTrivia])) hend
  | @token r r' t ts stop hnext ht _ ih =>
    have hstep := step_of_next hskip hnext
    have hskip' : r'.skipTrivia = false :=
      (step_ok (next_eq_step hskip ▸ hnext) ht).2.trans hskip
    cases htrivia : t.kind.isTrivia with
    | true =>
      have hsolid : solid (t :: ts) = solid ts := by simp [Token.solid, htrivia]
      rw [hsolid]
      exact (ih hskip').of_next_eq (next_of_trivia rfl hstep htrivia)
    | false =>
      have hsolid : solid (t :: ts) = t :: solid ts := by simp [Token.solid, htrivia]
      rw [hsolid]
      exact .token (next_of_step_ok hstep (by simp [htrivia])) ht (ih hskip')

/-! ## Tapes -/

/-- A list of tokens to be read one after another. The last one can be given back until the next
    one is read. -/
structure Tape where
  ahead : List Token
  /-- The end of the text or a fault, once there are no tokens ahead. -/
  stop : Except Fault Token
  last : Option Token := none
  /-- Whether the last token can be given back. -/
  held : Bool := false

namespace Tape

/-- Carries out one operation. Parts of tokens cannot be given back. -/
def perform (tape : Tape) : Op → Answer × Tape
  | .next =>
    match tape.ahead, tape.stop with
    | t :: ts, _ => (.token t, { tape with ahead := ts, last := some t, held := true })
    | [], .ok t => (.token t, { tape with last := some t, held := false })
    | [], .error f => (.fault f, { tape with held := false })
  | .unread =>
    match tape.last with
    | some t =>
      (.bytes (Text.byteLength t.lexeme),
        if tape.held then { tape with ahead := t :: tape.ahead, held := false } else tape)
    | none => (.nothing, tape)
  | .pushBack _ => (.nothing, tape)

/-- Carries out the operations in order and collects their answers. -/
def performAll (tape : Tape) : List Op → List Answer
  | [] => []
  | op :: ops => (tape.perform op).1 :: (tape.perform op).2.performAll ops

end Tape

theorem unread_held (h : r.Holds t) : (r.unread t).held = [] := by
  simp [unread, pushBack, h.lexeme]

/-- The session stands where the tape does. -/
structure Plays (source : Source) (s : Session) (tape : Tape) : Prop where
  stands : s.Stands source
  returns : s.reader.Returns tape.ahead tape.stop
  last : s.last = tape.last
  held : tape.held = true → ∃ t, tape.last = some t ∧ t.kind ≠ .eof ∧ s.reader.Holds t
  empty : tape.held = false → s.reader.held = []

namespace Plays

variable {source : Source} {s : Session} {tape : Tape}

theorem next (h : Plays source s tape) :
    (s.perform .next).1 = (tape.perform .next).1 ∧
      Plays source (s.perform .next).2 (tape.perform .next).2 := by
  have hstands := h.stands.perform .next
  obtain ⟨before, hin⟩ := h.stands
  obtain ⟨ahead, stop, last, held⟩ := tape
  have hreturns := h.returns
  cases hreturns with
  | token hnext ht hrest =>
    simp only [Session.perform, Tape.perform, hnext] at hstands ⊢
    exact ⟨trivial, hstands, hrest, rfl, fun _ => ⟨_, rfl, ht, next_holds hnext⟩, by simp⟩
  | stop hnext hend =>
    cases stop with
    | ok t =>
      have ht : t.kind = .eof := of_decide_eq_true hend
      have hholds := next_holds hnext
      simp only [Session.perform, Tape.perform, hnext] at hstands ⊢
      exact ⟨trivial, hstands, .stop (hholds.next_of_eof ht) hend, rfl, by simp,
        fun _ => hholds.held_of_eof ht⟩
    | error f =>
      have hfails := hin.next_fails hnext
      simp only [Session.perform, Tape.perform, hnext] at hstands ⊢
      exact ⟨trivial, hstands, .stop hfails.next rfl, h.last, by simp, fun _ => hfails.held⟩

theorem unread (h : Plays source s tape) :
    (s.perform .unread).1 = (tape.perform .unread).1 ∧
      Plays source (s.perform .unread).2 (tape.perform .unread).2 := by
  have hstands := h.stands.perform .unread
  obtain ⟨reader, last⟩ := s
  obtain ⟨ahead, stop, last', held⟩ := tape
  obtain ⟨-, hreturns, hlast, hheld, hempty⟩ := h
  cases hlast
  cases last with
  | none => exact ⟨rfl, hstands, hreturns, rfl, hheld, hempty⟩
  | some t =>
    refine ⟨rfl, ?_⟩
    cases held with
    | true =>
      obtain ⟨_, ⟨⟩, ht, hholds⟩ := hheld rfl
      exact ⟨hstands, .token hholds.next_unread ht hreturns, rfl,
        fun h => absurd h Bool.false_ne_true, fun _ => unread_held hholds⟩
    | false =>
      have hback : reader.unread t = reader := pushBack_of_held (hempty rfl) _
      simp only [Session.perform, hback] at hstands ⊢
      exact ⟨hstands, hreturns, rfl, fun h => absurd h Bool.false_ne_true, hempty⟩

/-- A session and a tape that stand at the same place give the same answers. -/
theorem performAll (h : Plays source s tape) {ops : List Op} (hops : ∀ n, Op.pushBack n ∉ ops) :
    s.performAll ops = tape.performAll ops := by
  induction ops generalizing s tape with
  | nil => rfl
  | cons op ops ih =>
    have hrest : ∀ n, Op.pushBack n ∉ ops := fun n hn => hops n (List.mem_cons_of_mem op hn)
    rw [Session.performAll, Tape.performAll]
    cases op with
    | next =>
      obtain ⟨hanswer, hafter⟩ := h.next
      rw [← hanswer, ← ih hafter hrest]
    | unread =>
      obtain ⟨hanswer, hafter⟩ := h.unread
      rw [← hanswer, ← ih hafter hrest]
    | pushBack n => exact absurd List.mem_cons_self (hops n)

end Plays

theorem plays_start {source : Source} {skipTrivia : Bool}
    (h : (ofText source.text skipTrivia).Returns ts stop) :
    Plays source (Session.start source.text skipTrivia) { ahead := ts, stop } :=
  ⟨⟨[], in_ofText source skipTrivia⟩, h, rfl, nofun, fun _ => rfl⟩

end Reader

open Reader

/-- What a reader of all tokens returns up to the end of the text or a fault, without the trivia, is
    what a reader returns that passes over trivia, up to the same end or fault. Asked for one token
    after another, and given tokens back any number of times in between, both readers answer like
    the tapes of these tokens. -/
theorem trivia_modes_agree (source : Source) {ops : List Op} (hops : ∀ n, Op.pushBack n ∉ ops) :
    ∃ tokens stop,
      (ofText source.text false).readAll = (tokens, stop) ∧
      (ofText source.text true).readAll = (Token.solid tokens, stop) ∧
      (∀ t ∈ tokens, t.kind ≠ .eof) ∧ isEnd stop = true ∧
      (Session.start source.text false).performAll ops =
        Tape.performAll { ahead := tokens, stop } ops ∧
      (Session.start source.text true).performAll ops =
        Tape.performAll { ahead := Token.solid tokens, stop } ops := by
  have hall := returns_readAll (ofText source.text false)
  have hsolid : (ofText source.text true).Returns _ _ := hall.skipping rfl
  exact ⟨_, _, rfl, hsolid.readAll_eq, hall.ne_eof, hall.isEnd, (plays_start hall).performAll hops,
    (plays_start hsolid).performAll hops⟩

/-- Two names with a comment and a line end in between, and then a character that no token has. -/
def commented : Source := .ofString "p" "a // b\n é#"

/-- Each name is read twice, the fault too, and the first name is given back twice in a row. -/
def rereads : List Op :=
  [.next, .unread, .unread, .next, .next, .unread, .next, .next, .unread, .next]

/-- Of six tokens two are not trivia, and they are read twice each before the fault. -/
theorem trivia_modes_agree_commented :
    (∀ n, Op.pushBack n ∉ rereads) ∧
    ∃ tokens stop, tokens.length = 6 ∧ (Token.solid tokens).length = 2 ∧
      (Session.start commented.text true).performAll rereads =
        Tape.performAll { ahead := Token.solid tokens, stop } rereads := by
  have hops : ∀ n, Op.pushBack n ∉ rereads := by
    simp [rereads]
  obtain ⟨tokens, stop, hall, hsolid, -, -, -, hreread⟩ := trivia_modes_agree commented hops
  have hcount : (ofText commented.text false).readAll.1.length = 6 := by decide +kernel
  have hcount' : (ofText commented.text true).readAll.1.length = 2 := by decide +kernel
  rw [hall] at hcount
  rw [hsolid] at hcount'
  exact ⟨hops, tokens, stop, hcount, hcount', hreread⟩

end TierScript
