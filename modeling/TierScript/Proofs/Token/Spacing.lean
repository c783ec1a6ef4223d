import TierScript.Proofs.Program.Faults

/-!
# Where tokens start and end

The tokens of a text start one after another. A token ends before the next one starts, and not
before it starts itself. So a run of tokens has an extent, from the start of the first to the end of
the last, that covers all of them.

* `Reader.Lexes.increasing`: the tokens of a text start one after another.
* `Position.before_after_of_lastOf`: the last character of a text stands before what follows it. A
  token counts fewer line ends within itself than the text does, but never more.
* `Reader.Lexes.laid`: the tokens of a text are laid out one behind the other.
* `Laid.through`: what a span becomes when it is taken together with later tokens.
-/

namespace TierScript

/-! ## Positions one after another -/

/-- `p` comes before `q`. -/
def Position.Before (p q : Position) : Prop := p.line < q.line ∨ p.line = q.line ∧ p.col < q.col

namespace Position

variable {p q r : Position}

theorem Before.trans (h : p.Before q) (h' : q.Before r) : p.Before r := by
  unfold Before at *
  omega

theorem Before.le (h : p.Before q) : p.le q = true := by
  rw [le_iff]
  unfold Before at h
  omega

theorem Before.ne (h : p.Before q) : p ≠ q := by
  rintro rfl
  unfold Before at h
  omega

theorem before_next (p : Position) (endsLine : Bool) : p.Before (p.next endsLine) := by
  unfold next
  split
  · exact .inl (Nat.lt_succ_self p.line)
  · exact .inr ⟨rfl, Nat.lt_succ_self p.col⟩

theorem before_after (p : Position) (following : Option Char) {cs : List Char} (h : cs ≠ []) :
    p.Before (p.after following cs) := by
  induction cs generalizing p with
  | nil => exact absurd rfl h
  | cons c cs ih =>
    rw [after]
    cases cs with
    | nil => exact before_next p _
    | cons d ds => exact (before_next p _).trans (ih _ (by simp))

end Position

/-- The token starts before the other one. -/
def Token.Precedes (t u : Token) : Prop := t.span.start.Before u.span.start

namespace Reader

variable {r r' : Reader} {t : Token} {ts : List Token}

theorem step_start (h : r.step = (.ok t, r')) :
    t.span.start = r.commit.position ∧ r'.position = r.commit.position ∧ r'.held = t.lexeme ∧
      t.lexeme ++ r'.ahead = r.ahead := by
  unfold step at h
  dsimp only at h
  split at h
  · cases h
  · cases h
    exact ⟨rfl, rfl, rfl, List.take_append_drop _ _⟩

/-- A token that is not the end of the text is not empty, so the next one starts behind it. -/
theorem step_commit (h : r.step = (.ok t, r')) (ht : t.kind ≠ .eof) :
    r.commit.position.Before r'.commit.position := by
  obtain ⟨-, hposition, hheld, hahead⟩ := step_start h
  have hne : t.lexeme ≠ [] := by
    intro hempty
    rw [hempty, List.nil_append] at hahead
    exact absurd (congrArg List.length hahead) (Nat.ne_of_lt (step_ok h ht).1)
  show r.commit.position.Before (r'.position.after r'.ahead.head? r'.held)
  rw [hposition, hheld]
  exact Position.before_after _ _ hne

/-- The tokens of a text start one after another. -/
theorem Lexes.increasing (h : Lexes r ts) :
    (∀ t ∈ ts, t.span.start = r.commit.position ∨ r.commit.position.Before t.span.start) ∧
      ts.Pairwise Token.Precedes := by
  induction h with
  | stop hstep ht =>
    refine ⟨?_, List.pairwise_singleton _ _⟩
    intro t ht
    rw [List.mem_singleton.mp ht]
    exact .inl (step_start hstep).1
  | @next r r' t ts hstep ht _ ih =>
    obtain ⟨hlater, hpairwise⟩ := ih
    have hstart := (step_start hstep).1
    have hnext : ∀ u ∈ ts, r.commit.position.Before u.span.start := by
      intro u hu
      rcases hlater u hu with heq | hbefore
      · rw [heq]
        exact step_commit hstep ht
      · exact (step_commit hstep ht).trans hbefore
    refine ⟨?_, List.pairwise_cons.mpr ⟨?_, hpairwise⟩⟩
    · intro u hu
      rcases List.mem_cons.mp hu with rfl | hu
      · exact .inl hstart
      · exact .inr (hnext u hu)
    · intro u hu
      show t.span.start.Before u.span.start
      rw [hstart]
      exact hnext u hu

end Reader

/-! ## Positions within a token -/

namespace Position

theorem first_le_next (p : Position) (endsLine : Bool) : p.le (p.next endsLine) = true :=
  (before_next p endsLine).le

theorem le_lastOf (p : Position) (cs : List Char) : p.le (p.lastOf cs) = true := by
  induction cs generalizing p with
  | nil => exact le_refl p
  | cons c cs ih =>
    cases cs with
    | nil => exact le_refl p
    | cons d ds => exact le_trans (first_le_next p _) (ih _)

/-- The positions within a token, where only a line feed ends a line, never run ahead of those in
    the text, where a lone carriage return ends one too. -/
theorem before_after_of_lastOf {p q : Position} (h : q = p ∨ q.line < p.line)
    (following : Option Char) {cs : List Char} (hne : cs ≠ []) :
    (q.lastOf cs).Before (p.after following cs) := by
  induction cs generalizing p q with
  | nil => exact absurd rfl hne
  | cons c cs ih =>
    cases cs with
    | nil =>
      have hlast : q.Before (p.next (endsLine c following)) := by
        rcases h with rfl | hlt
        · exact before_next q _
        · refine .inl (Nat.lt_of_lt_of_le hlt ?_)
          unfold next
          split
          · exact Nat.le_succ _
          · exact Nat.le_refl _
      exact hlast
    | cons d ds =>
      refine ih ?_ (List.cons_ne_nil d ds)
      have hline : (c == '\n') = true → endsLine c (some d) = true := by
        intro hc
        rw [endsLine, hc, Bool.true_or]
      -- both go to the next line, or both stay, or only the text goes on
      unfold next
      split <;> split
      · rcases h with rfl | hlt
        · exact .inl rfl
        · exact .inr (Nat.succ_lt_succ hlt)
      · next hc hends => exact absurd (hline hc) hends
      · rcases h with rfl | hlt
        · exact .inr (Nat.lt_succ_self _)
        · exact .inr (Nat.lt_succ_of_lt hlt)
      · rcases h with rfl | hlt
        · exact .inl rfl
        · exact .inr hlt

end Position

/-! ## Tokens one behind the other -/

/-- The token ends before the other one starts. -/
def Token.Leaves (t u : Token) : Prop := t.span.stop.Before u.span.start

/-- No token ends before it starts, and each one ends before the next one starts. -/
structure Laid (ts : List Token) : Prop where
  spans : ∀ t ∈ ts, t.span.start.le t.span.stop = true
  order : ts.Pairwise Token.Leaves

namespace Reader

variable {r r' : Reader} {t : Token} {ts : List Token}

theorem step_span (h : r.step = (.ok t, r')) :
    t.span = .ofText r.commit.position t.lexeme := by
  unfold step at h
  dsimp only at h
  split at h
  · cases h
  · cases h
    rfl

/-- A token that is not the end of the text ends before the next one starts. -/
theorem step_stop (h : r.step = (.ok t, r')) (ht : t.kind ≠ .eof) :
    t.span.stop.Before r'.commit.position := by
  obtain ⟨-, hposition, hheld, hahead⟩ := step_start h
  have hne : t.lexeme ≠ [] := by
    intro hempty
    rw [hempty, List.nil_append] at hahead
    exact absurd (congrArg List.length hahead) (Nat.ne_of_lt (step_ok h ht).1)
  have hbefore := Position.before_after_of_lastOf (.inl (Eq.refl r.commit.position))
    r'.ahead.head? hne
  have hafter : r'.commit.position = r.commit.position.after r'.ahead.head? t.lexeme := by
    rw [← hposition, ← hheld]
    rfl
  rw [step_span h, hafter]
  exact hbefore

/-- The tokens of a text are laid out one behind the other. -/
theorem Lexes.laid (h : Lexes r ts) : Laid ts := by
  have hspan {r r' : Reader} {t : Token} (h : r.step = (.ok t, r')) :
      t.span.start.le t.span.stop = true := by
    rw [step_span h]
    exact Position.le_lastOf _ _
  induction h with
  | stop hstep ht =>
    exact ⟨List.forall_mem_singleton.mpr (hspan hstep), List.pairwise_singleton _ _⟩
  | @next r r' t ts hstep ht hrest ih =>
    refine ⟨List.forall_mem_cons.mpr ⟨hspan hstep, ih.spans⟩, List.pairwise_cons.mpr ⟨?_, ih.order⟩⟩
    intro u hu
    have hstop := step_stop hstep ht
    show t.span.stop.Before u.span.start
    rcases hrest.increasing.1 u hu with heq | hbefore
    · rw [heq]
      exact hstop
    · exact hstop.trans hbefore

/-- No token of a text starts before the text. -/
theorem Lexes.first_le (h : Lexes (ofText text skip) ts) :
    ∀ t ∈ ts, Position.first.le t.span.start = true := by
  intro t ht
  rcases h.increasing.1 t ht with heq | hbefore
  · rw [heq]
    exact Position.le_refl _
  · exact hbefore.le

end Reader

/-! ## Extents -/

/-- From the start of the first of the tokens to the end of the last. -/
def Token.extent (ts : List Token) : Span := ⟨(firstSpanOf ts).start, (lastSpanOf .first ts).stop⟩

theorem lastSpanOf_mem {ts : List Token} (h : ts ≠ []) (s : Span) :
    ∃ t ∈ ts, lastSpanOf s ts = t.span := by
  cases ts using List.reverseRecOn with
  | nil => exact absurd rfl h
  | append_singleton ts t _ => exact ⟨t, by simp, by simp⟩

theorem lastSpanOf_suffix {ts us : List Token} (h : ts <:+ us) (hne : ts ≠ []) (s s' : Span) :
    lastSpanOf s ts = lastSpanOf s' us := by
  obtain ⟨before, rfl⟩ := h
  rw [lastSpanOf_append]
  exact lastSpanOf_eq hne _ _

theorem firstSpanOf_append {ts us : List Token} (h : ts ≠ []) :
    firstSpanOf (ts ++ us) = firstSpanOf ts := by
  cases ts with
  | nil => exact absurd rfl h
  | cons t ts => rfl

/-- Two spans of which neither end of the second one comes before that of the first. -/
theorem Span.merge_of_le {a b : Span} (hstart : a.start.le b.start = true)
    (hstop : a.stop.le b.stop = true) : a.merge b = ⟨a.start, b.stop⟩ := by
  rw [merge, Position.min, Position.max, if_pos hstart, if_pos hstop]

namespace Laid

variable {ts us : List Token} {t : Token}

theorem sublist (h : Laid us) (hts : ts.Sublist us) : Laid ts :=
  ⟨fun t ht => h.spans t (hts.mem ht), h.order.sublist hts⟩

/-- The extent of a run covers its tokens. -/
theorem covers (h : Laid ts) (ht : t ∈ ts) : (Token.extent ts).covers t.span = true := by
  rw [Span.covers, Bool.and_eq_true]
  constructor
  · cases ts with
    | nil => cases ht
    | cons u ts =>
      rcases List.mem_cons.mp ht with rfl | ht
      · exact Position.le_refl _
      · have hleaves := (List.pairwise_cons.mp h.order).1 t ht
        exact Position.le_trans (h.spans u List.mem_cons_self) hleaves.le
  · cases ts using List.reverseRecOn with
    | nil => cases ht
    | append_singleton ts u _ =>
      rw [Token.extent, lastSpanOf_append]
      rcases List.mem_append.mp ht with ht | ht
      · have hleaves := (List.pairwise_append.mp h.order).2.2 t ht u List.mem_cons_self
        exact Position.le_trans hleaves.le (h.spans u (by simp))
      · rw [List.mem_singleton.mp ht]
        exact Position.le_refl _

/-- A span that starts with the tokens and ends with one of them, merged with the extent of the last
    tokens, is the extent of them all. -/
theorem merge_extent (h : Laid us) {s : Span} (hstart : s.start = (firstSpanOf us).start)
    (hstop : ∃ t ∈ us, s.stop = t.span.stop) (hts : ts <:+ us) (hne : ts ≠ []) :
    s.merge (Token.extent ts) = Token.extent us := by
  obtain ⟨t, ht, hst⟩ := hstop
  have hend : (Token.extent ts).stop = (Token.extent us).stop := by
    rw [Token.extent, lastSpanOf_suffix hts hne .first .first]
    rfl
  obtain ⟨u, rest, rfl⟩ := List.exists_cons_of_ne_nil hne
  have hu := (Bool.and_eq_true_iff.mp (h.covers (hts.mem List.mem_cons_self))).1
  have hle := (Bool.and_eq_true_iff.mp (h.covers ht)).2
  rw [Span.merge_of_le, hend, hstart]
  · rfl
  · rw [hstart]
    exact hu
  · rw [hend, hst]
    exact hle

/-- The same for a span that is taken together with the last tokens. -/
theorem through (h : Laid us) {s : Span} (hstart : s.start = (firstSpanOf us).start)
    (hstop : ∃ t ∈ us, s.stop = t.span.stop) (hts : ts <:+ us) (hne : ts ≠ []) :
    s.through ts = Token.extent us := by
  cases ts using List.reverseRecOn with
  | nil => exact absurd rfl hne
  | append_singleton ts t _ =>
    rw [Span.through, lastSpanOf_append]
    have hlast := (List.suffix_append ts [t]).trans hts
    exact h.merge_extent hstart hstop hlast (List.cons_ne_nil t [])

end Laid

end TierScript
