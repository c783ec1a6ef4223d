import TierScript.Program.Feed
import TierScript.Proofs.Token.Trivia

/-!
# Peeking and giving back

The parser peeks at the next token of a feed, and takes it if it goes on with it. A feed has no
state but the tokens that are left and the last span. The other way to look ahead has one: take the
token, and if it is not wanted, give it back to the reader and set the last span back to what it was
before. Both ways lead to the same programs and the same faults.

* `Cursor`: a reader, the span of the last token, and the span of the one before it.
  `Cursor.advance` and `Cursor.unread` take a token and give it back.
* `Cursor.Before`: from the cursor on, the reader returns what is left in the feed.
* `Cursor.Takes`: what taking a token does at such a place.
* `Cursor.Refines`: a parser that gives tokens back comes to what one that peeks comes to. It is
  kept by sequencing (`Refines.bind`), by every choice after a look at a token (`Refines.look`), and
  by taking a token twice (`Refines.retake`).
-/

namespace TierScript

/-- A reader, the span of the last token that was taken, and the one that was the last before
    (`Parser`). -/
structure Cursor where
  reader : Reader
  last : Span := .first
  prior : Span := .first

namespace Cursor

/-- A parser that takes tokens from a cursor (`ParseResult`). -/
abbrev Pull (α : Type) : Type := StateT Cursor (Except Fault) α

/-- The start of a text (`new`). -/
def ofText (text : List Char) : Cursor := { reader := .ofText text true }

/-- Takes the next token (`advance`). -/
def advance : Pull Token := fun c =>
  match c.reader.next with
  | (.ok token, reader) => .ok (token, ⟨reader, token.span, c.last⟩)
  | (.error fault, _) => .error fault

/-- Gives back the token that was taken last (`unread`). -/
def unread (token : Token) : Pull Unit := fun c =>
  .ok ((), { c with reader := c.reader.unread token, last := c.prior })

/-- The span of the last token that was taken and not given back (`previous_span`). -/
def previousSpan : Pull Span := fun c => .ok (c.last, c)

/-- Fails with a complaint about a span (`error_at`). -/
def refuse {α : Type} (complaint : Complaint) (span : Span) : Pull α := fun _ =>
  .error ⟨complaint, span⟩

/-- The reader returns the tokens that are left in the feed, and then its end. -/
structure Before (c : Cursor) (feed : Feed) : Prop where
  returns : c.reader.Returns feed.items feed.stop
  last : c.last = feed.last

theorem before_ofText (text : List Char) : (ofText text).Before (Feed.ofText text) :=
  ⟨Reader.returns_readAll _, rfl⟩

/-! ## Taking one token -/

/-- What taking a token comes to: a token, which can be given back, or a fault. Peeking comes to
    the same and leaves the feed as it is. -/
inductive Takes (c : Cursor) (feed : Feed) : Prop where
  | token {t : Token} {c' back : Cursor} {feed' : Feed} :
      advance c = .ok (t, c') → c'.Before feed' → unread t c' = .ok ((), back) → back.Before feed →
      Parse.advance feed = .done t feed' → Parse.peek feed = .done t feed → Takes c feed
  | fault {f : Fault} : advance c = .error f → Parse.advance feed = .fault f →
      Parse.peek feed = .fault f → Takes c feed

theorem advance_of_next {c : Cursor} {t : Token} {r : Reader} (h : c.reader.next = (.ok t, r)) :
    advance c = .ok (t, ⟨r, t.span, c.last⟩) := by
  rw [advance, h]

theorem advance_of_fault {c : Cursor} {f : Fault} {r : Reader}
    (h : c.reader.next = (.error f, r)) : advance c = .error f := by
  rw [advance, h]

theorem Before.takes {c : Cursor} {feed : Feed} (h : c.Before feed) : Takes c feed := by
  obtain ⟨hreturns, hlast⟩ := h
  obtain ⟨items, stop, last⟩ := feed
  cases hreturns with
  | token hnext ht hrest =>
    have hback := (Reader.next_holds hnext).next_unread
    exact .token (advance_of_next hnext) ⟨hrest, rfl⟩ rfl ⟨.token hback ht hrest, hlast⟩ rfl rfl
  | stop hnext hend =>
    cases stop with
    | error f => exact .fault (advance_of_fault hnext) rfl rfl
    | ok t =>
      -- the end of the text is taken and given back any number of times
      have ht : t.kind = .eof := of_decide_eq_true hend
      have hholds := Reader.next_holds hnext
      have hagain := hholds.next_of_eof ht
      exact .token (advance_of_next hnext) ⟨.stop hagain hend, rfl⟩ rfl
        ⟨.stop hholds.next_unread hend, hlast⟩ rfl rfl

/-! ## Parsers that come to the same -/

section Sequencing

variable {α β : Type} {x : Pull α} {f : α → Pull β} {c c' : Cursor}

theorem bind_of_ok {a : α} (h : x c = .ok (a, c')) : (x >>= f) c = f a c' := by
  show StateT.bind x f c = f a c'
  rw [StateT.bind, h]
  rfl

theorem bind_of_error {e : Fault} (h : x c = .error e) : (x >>= f) c = .error e := by
  show StateT.bind x f c = .error e
  rw [StateT.bind, h]
  rfl

end Sequencing

/-- What the two parsers have come to is the same, unless the second one is out of fuel. -/
def Agrees {α : Type} (outcome : Except Fault (α × Cursor)) : Reply α → Prop
  | .done a feed => ∃ c, outcome = .ok (a, c) ∧ c.Before feed
  | .fault f => outcome = .error f
  | .exhausted => True

/-- From the same place on, the first parser comes to what the second one comes to. -/
def Refines {α : Type} (x : Pull α) (p : Parse α) : Prop :=
  ∀ c feed, c.Before feed → Agrees (x c) (p feed)

/-- What is done with a token that one parser has taken and the other one has peeked at. -/
inductive Decides {α : Type} (t : Token) : Pull α → Parse α → Prop where
  /-- It is not given back, and taken. -/
  | keep {x p} : Refines x p → Decides t x (do let _ ← Parse.advance; p)
  /-- It is given back, and not taken. -/
  | giveBack {x p} : Refines x p → Decides t (do unread t; x) p
  /-- It is the reason for a fault. -/
  | refuse {complaint span} : Decides t (refuse complaint span) (Parse.refuse complaint span)

theorem Decides.agrees {α : Type} {x : Pull α} {p : Parse α} {t : Token} {c back : Cursor}
    {feed feed' : Feed} (h : Decides t x p) (hafter : c.Before feed')
    (hunread : unread t c = .ok ((), back)) (hback : back.Before feed)
    (hadvance : Parse.advance feed = .done t feed') : Agrees (x c) (p feed) := by
  cases h with
  | keep hrest =>
    rw [Parse.bind_apply, hadvance]
    exact hrest c feed' hafter
  | giveBack hrest =>
    rw [bind_of_ok hunread]
    exact hrest back feed hback
  | refuse => rfl

namespace Refines

variable {α β : Type}

theorem pure (a : α) : Refines (pure a) (pure a) := fun c _ h => ⟨c, rfl, h⟩

theorem refuse (complaint : Complaint) (span : Span) :
    Refines (Cursor.refuse complaint span : Pull α) (Parse.refuse complaint span) :=
  fun _ _ _ => rfl

theorem previousSpan : Refines previousSpan Parse.lastSpan := by
  intro c feed h
  refine ⟨c, ?_, h⟩
  rw [Cursor.previousSpan, h.last]

/-- One parser after another. -/
theorem bind {x : Pull α} {p : Parse α} {f : α → Pull β} {g : α → Parse β} (h : Refines x p)
    (hf : ∀ a, Refines (f a) (g a)) : Refines (x >>= f) (p >>= g) := by
  intro c feed hc
  have hfirst := h c feed hc
  rw [Parse.bind_apply]
  cases hp : p feed with
  | done a feed' =>
    rw [hp] at hfirst
    obtain ⟨c', hx, hc'⟩ := hfirst
    rw [bind_of_ok hx]
    exact hf a c' feed' hc'
  | fault e =>
    rw [hp] at hfirst
    exact bind_of_error hfirst
  | exhausted => trivial

theorem advance : Refines advance Parse.advance := by
  intro c feed hc
  cases hc.takes with
  | token htake hafter _ _ hadvance =>
    rw [hadvance]
    exact ⟨_, htake, hafter⟩
  | fault htake hadvance =>
    rw [hadvance]
    exact htake

/-- Every choice after a look at a token: whether it is taken, given back or refused, a look is as
    good as a token that was taken. -/
theorem look {x : Token → Pull α} {p : Token → Parse α} (h : ∀ t, Decides t (x t) (p t)) :
    Refines (Cursor.advance >>= x) (Parse.peek >>= p) := by
  intro c feed hc
  rw [Parse.bind_apply]
  cases hc.takes with
  | fault htake _ hpeek =>
    rw [hpeek]
    exact bind_of_error htake
  | @token t c' back feed' htake hafter hunread hback hadvance hpeek =>
    rw [hpeek, bind_of_ok htake]
    exact (h t).agrees hafter hunread hback hadvance

/-- A token that is given back at once and taken again is taken once. -/
theorem retake {x : Token → Pull α} {p : Token → Parse α} (h : ∀ t, Refines (x t) (p t))
    (again : Token → Bool) :
    Refines (do
      let t ← Cursor.advance
      if again t then
        unread t
        x (← Cursor.advance)
      else x t) (Parse.advance >>= p) := by
  intro c feed hc
  rw [Parse.bind_apply]
  cases hc.takes with
  | fault htake hadvance =>
    rw [hadvance]
    exact bind_of_error htake
  | @token t c' back feed' htake hafter hunread hback hadvance =>
    rw [hadvance, bind_of_ok htake]
    have hrest := h t c' feed' hafter
    split
    · rw [bind_of_ok hunread]
      cases hback.takes with
      | fault _ hadvance' => cases hadvance.symm.trans hadvance'
      | token htake' hafter' _ _ hadvance' =>
        cases hadvance.symm.trans hadvance'
        rw [bind_of_ok htake']
        exact h t _ feed' hafter'
    · exact hrest

theorem peek : Refines (do let t ← Cursor.advance; unread t; return t) Parse.peek := by
  have hlook : Refines (do let t ← Cursor.advance; unread t; return t)
      (Parse.peek >>= fun t => return t) := look fun t => .giveBack (.pure t)
  intro c feed hc
  have hagrees := hlook c feed hc
  rw [Parse.bind_apply] at hagrees
  cases hpeek : Parse.peek feed <;> rw [hpeek] at hagrees <;> exact hagrees

theorem eat (kind : Kind) :
    Refines (do
      let t ← Cursor.advance
      if t.kind = kind then return true
      else
        unread t
        return false) (Parse.eat kind) := by
  refine look fun t => ?_
  split
  · exact .keep (.pure true)
  · exact .giveBack (.pure false)

/-- From the start of a text on. -/
theorem run {x : Pull α} {p : Parse α} (h : Refines x p) (text : List Char) :
    Agrees (x (ofText text)) (p (Feed.ofText text)) := h _ _ (before_ofText text)

end Refines

end Cursor

end TierScript
