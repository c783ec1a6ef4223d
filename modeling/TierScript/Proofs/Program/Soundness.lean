import TierScript.Proofs.Program.Grammar

/-!
# What the parser accepts is spelled

If the parser gives a result, the tokens it took spell that result by the rules of the grammar
(`blockSound`). Each rule of the parser is followed once, under the hypothesis that with one unit of
fuel less all rules behave; the tokens that a rule takes are recorded by `Took`.
-/

namespace TierScript

open Parse

/-! ## Taking tokens -/

/-- The feed has the empty token at the end of the text for its end, and nowhere else. -/
structure Feed.Whole (feed : Feed) : Prop where
  stop : ∃ t, feed.stop = .ok t ∧ t.kind = .eof
  items : ∀ t ∈ feed.items, t.kind ≠ .eof

/-- From the first feed to the second the tokens `ts` were taken. -/
structure Took (feed : Feed) (ts : List Token) (feed' : Feed) : Prop where
  items : feed.items = ts ++ feed'.items
  stop : feed'.stop = feed.stop
  last : feed'.last = lastSpanOf feed.last ts

namespace Took

variable {feed feed₁ feed₂ : Feed} {ts us : List Token}

theorem refl (feed : Feed) : Took feed [] feed := ⟨rfl, rfl, rfl⟩

theorem trans (h : Took feed ts feed₁) (h' : Took feed₁ us feed₂) : Took feed (ts ++ us) feed₂ where
  items := by rw [h.items, h'.items, List.append_assoc]
  stop := h'.stop.trans h.stop
  last := by rw [h'.last, h.last, lastSpanOf_append]

theorem cons {t : Token} (h : Took feed [t] feed₁) (h' : Took feed₁ us feed₂) :
    Took feed (t :: us) feed₂ := h.trans h'

theorem whole (h : Took feed ts feed₁) (hw : feed.Whole) : feed₁.Whole := by
  obtain ⟨⟨t, ht, hk⟩, hitems⟩ := hw
  refine ⟨⟨t, h.stop.trans ht, hk⟩, ?_⟩
  intro t' ht'
  exact hitems t' (h.items ▸ List.mem_append_right ts ht')

theorem through (h : Took feed ts feed₁) (hts : ts ≠ []) (s : Span) :
    s.merge feed₁.last = s.through ts := by
  rw [h.last, Span.through, lastSpanOf_eq hts feed.last s]

end Took

/-- Phrases that may have no tokens. -/
def Phrase.nullable : Phrase → Bool
  | .operands _ | .moreConds _ | .otherwise _ | .items _ => true
  | _ => false

theorem Spells.ne_nil {ts : List Token} {p : Phrase} (h : Spells ts p) (hp : p.nullable = false) :
    ts ≠ [] := by
  induction h with
  | tierVar _ ih | var _ ih | term _ ih | test _ ih | someArguments _ ih | someParameters _ ih
  | block _ ih | ifItem _ ih => exact ih rfl
  | noOperands | operand | invertedOperand | noConds | nextCond | noElse | elseIf | elseBody
  | noItems | semicolon | nextItem => cases hp
  | expr _ _ ih _ | conds _ _ ih _ => simp [ih rfl]
  | _ => simp

namespace Parse

variable {α β : Type} {feed feed₁ feed' : Feed}

theorem bind_eq_done {p : Parse α} {f : α → Parse β} {b : β} :
    (p >>= f) feed = .done b feed' ↔
      ∃ a feed₁, p feed = .done a feed₁ ∧ f a feed₁ = .done b feed' := by
  rw [bind_apply]
  cases p feed with
  | done a feed₁ =>
    constructor
    · intro h
      exact ⟨a, feed₁, rfl, h⟩
    · rintro ⟨_, _, heq, h⟩
      cases heq
      exact h
  | fault e => simp
  | exhausted => simp

theorem pure_eq_done {a b : α} :
    (pure a : Parse α) feed = .done b feed' ↔ a = b ∧ feed = feed' := by
  simp

theorem lastSpan_eq_done {s : Span} :
    lastSpan feed = .done s feed' ↔ feed.last = s ∧ feed = feed' := by
  simp [lastSpan]

/-- A token that is not the end of the text was taken from the feed. -/
theorem advance_done {t : Token} (hw : feed.Whole) (h : advance feed = .done t feed')
    (ht : t.kind ≠ .eof) : Took feed [t] feed' := by
  obtain ⟨e, he, hk⟩ := hw.stop
  unfold advance at h
  split at h
  · next hitems => cases h; exact ⟨hitems, rfl, rfl⟩
  · rw [he] at h
    cases h
    exact absurd hk ht

theorem items_of_eof {t : Token} (hw : feed.Whole) (h : advance feed = .done t feed')
    (ht : t.kind = .eof) : feed.items = [] := by
  unfold advance at h
  split at h
  · next hitems =>
    cases h
    exact absurd ht (hw.items t (by rw [hitems]; exact List.mem_cons_self))
  · assumption

/-- The token that is looked at is the one that is taken next. -/
theorem peek_done {t : Token} (h : peek feed = .done t feed') :
    feed' = feed ∧ (∃ feed₁, advance feed = .done t feed₁) := by
  unfold peek at h
  unfold advance
  split at h
  · cases h; exact ⟨rfl, _, rfl⟩
  · split at h
    · cases h; exact ⟨rfl, _, rfl⟩
    · cases h

theorem expect_done {k : Kind} {t : Token} (hw : feed.Whole) (hk : k ≠ .eof)
    (h : expect k feed = .done t feed') : t.kind = k ∧ Took feed [t] feed' := by
  simp only [expect, bind_eq_done] at h
  obtain ⟨t', feed₁, hadv, h⟩ := h
  split at h
  · next hkind =>
    obtain ⟨rfl, rfl⟩ := pure_eq_done.mp h
    exact ⟨hkind, advance_done hw hadv (hkind ▸ hk)⟩
  · cases h

theorem expectName_done {t : Token} (hw : feed.Whole) (h : expectName feed = .done t feed') :
    t.kind = .identifier ∧ Took feed [t] feed' := by
  simp only [expectName, bind_eq_done] at h
  obtain ⟨t', feed₁, hadv, h⟩ := h
  split at h
  · next hkind =>
    obtain ⟨rfl, rfl⟩ := pure_eq_done.mp h
    exact ⟨hkind, advance_done hw hadv (by rw [hkind]; nofun)⟩
  · cases h

theorem eat_done {k : Kind} {b : Bool} (hw : feed.Whole) (hk : k ≠ .eof)
    (h : eat k feed = .done b feed') :
    (b = true ∧ ∃ t, t.kind = k ∧ Took feed [t] feed') ∨
      (b = false ∧ feed' = feed ∧ ∀ t ∈ feed.items.head?, t.kind ≠ k) := by
  simp only [eat, bind_eq_done] at h
  obtain ⟨t, feed₁, hpeek, h⟩ := h
  obtain ⟨rfl, feed₂, hadv⟩ := peek_done hpeek
  split at h
  · next hkind =>
    simp only [bind_eq_done, pure_eq_done] at h
    obtain ⟨t', feed₃, hadv', rfl, rfl⟩ := h
    rw [hadv] at hadv'
    cases hadv'
    exact .inl ⟨rfl, t, hkind, advance_done hw hadv (hkind ▸ hk)⟩
  · next hkind =>
    obtain ⟨rfl, rfl⟩ := pure_eq_done.mp h
    refine .inr ⟨rfl, rfl, ?_⟩
    intro t' ht'
    unfold advance at hadv
    split at hadv
    · next hitems =>
      cases hadv
      rw [hitems] at ht'
      cases ht'
      exact hkind
    · next hitems => rw [hitems] at ht'; cases ht'

theorem rejectDot_done {qualified : String} {u : Unit}
    (h : rejectDot qualified feed = .done u feed') :
    feed' = feed := by
  simp only [rejectDot, bind_eq_done] at h
  obtain ⟨t, feed₁, hpeek, h⟩ := h
  obtain ⟨rfl, -⟩ := peek_done hpeek
  split at h
  · cases h
  · exact (pure_eq_done.mp h).2.symm

/-- A numeral has a value if and only if the value fits. -/
theorem numeral_done {t : Token} {negative : Bool} {n : Int64} :
    numeral t negative feed = .done n feed' ↔
      feed' = feed ∧ n.toInt = if negative then -t.magnitude else t.magnitude := by
  have hlow := n.le_toInt
  have hhigh := n.toInt_lt
  unfold numeral Token.magnitude
  generalize Nat.ofDigitChars 10 t.lexeme 0 = k
  cases negative with
  | true =>
    by_cases hk : k ≤ 2 ^ 63
    · have hfits : (Int64.ofInt (-(k : Int))).toInt = -(k : Int) :=
        Int64.toInt_ofInt_of_le (by omega) (by omega)
      simp only [if_true, if_pos hk, pure_eq_done, ← Int64.toInt_inj, hfits]
      exact and_comm.trans (and_congr eq_comm eq_comm)
    · simp only [if_true, if_neg hk]
      refine iff_of_false nofun ?_
      omega
  | false =>
    by_cases hk : k < 2 ^ 63
    · have hfits : (Int64.ofNat k).toInt = k := Int64.toInt_ofNat_of_lt hk
      simp only [Bool.false_eq_true, if_false, if_pos hk, pure_eq_done, ← Int64.toInt_inj, hfits]
      exact and_comm.trans (and_congr eq_comm eq_comm)
    · simp only [Bool.false_eq_true, if_false, if_neg hk]
      refine iff_of_false nofun ?_
      omega

variable {fuel : Nat}

/-! ## Expressions -/

theorem tierVariable_sound {tier : Tier} {v : Var} {w : Token} (hw : feed.Whole)
    (hk : w.kind = .tier tier) (h : tierVariable tier feed = .done v feed') :
    ∃ ts, Took feed ts feed' ∧ Spells (w :: ts) (.tierVar v) := by
  simp only [tierVariable, bind_eq_done, pure_eq_done] at h
  obtain ⟨dot, feed₁, heat, name, feed₂, hname, _, feed₃, hreject, rfl, rfl⟩ := h
  have := rejectDot_done hreject
  subst this
  rcases eat_done hw (by nofun) heat with ⟨-, d, hd, htook⟩ | ⟨-, rfl, -⟩
  · obtain ⟨hn, htook'⟩ := expectName_done (htook.whole hw) hname
    exact ⟨[d, name], htook.cons htook', .tierDotName hk hd hn⟩
  · obtain ⟨hn, htook'⟩ := expectName_done hw hname
    exact ⟨[name], htook', .tierName hk hn⟩

theorem variableFrom_sound {v : Var} {w : Token} (hw : feed.Whole)
    (h : variableFrom w feed = .done v feed') :
    ∃ ts, Took feed ts feed' ∧ Spells (w :: ts) (.var v) := by
  unfold variableFrom at h
  generalize hk : w.kind = k at h
  split at h
  · next tier =>
    obtain ⟨ts, htook, hspell⟩ := tierVariable_sound hw hk h
    exact ⟨ts, htook, .tierVar hspell⟩
  · simp only [bind_eq_done] at h
    obtain ⟨next, feed₁, hpeek, h⟩ := h
    obtain ⟨rfl, -⟩ := peek_done hpeek
    split at h
    · cases h
    · obtain ⟨rfl, rfl⟩ := pure_eq_done.mp h
      exact ⟨[], .refl _, .name hk⟩
  · cases h

/-- With the given fuel, what is accepted as an expression or a part of one is spelled. -/
structure ExprSound (fuel : Nat) : Prop where
  expression : ∀ {feed feed' e}, feed.Whole → expression fuel feed = .done e feed' →
    ∃ ts, Took feed ts feed' ∧ Spells ts (.expr e)
  operands : ∀ {feed feed' l}, feed.Whole → operands fuel feed = .done l feed' →
    ∃ ts, Took feed ts feed' ∧ Spells ts (.operands l)
  term : ∀ {feed feed' t}, feed.Whole → term fuel feed = .done t feed' →
    ∃ ts, Took feed ts feed' ∧ Spells ts (.term t)
  operand : ∀ {feed feed' w kind negate}, feed.Whole →
    operand fuel w feed = .done (kind, negate) feed' →
    ∃ ts, Took feed ts feed' ∧ Spells (w :: ts) (.operand kind negate)

theorem expression_sound (ih : ExprSound fuel) {e : Expr} (hw : feed.Whole)
    (h : expression (fuel + 1) feed = .done e feed') :
    ∃ ts, Took feed ts feed' ∧ Spells ts (.expr e) := by
  simp only [expression, bind_eq_done, lastSpan_eq_done, pure_eq_done] at h
  obtain ⟨first, feed₁, hfirst, rest, feed₂, hrest, _, _, ⟨rfl, rfl⟩, rfl, rfl⟩ := h
  obtain ⟨t, ht, hterm⟩ := ih.term hw hfirst
  obtain ⟨r, hr, hoperands⟩ := ih.operands (ht.whole hw) hrest
  refine ⟨t ++ r, ht.trans hr, ?_⟩
  rw [(ht.trans hr).through (by simp [hterm.ne_nil rfl])]
  exact .expr hterm hoperands

theorem operands_sound (ih : ExprSound fuel) {l : List (ArithOp × Term)} (hw : feed.Whole)
    (h : operands (fuel + 1) feed = .done l feed') :
    ∃ ts, Took feed ts feed' ∧ Spells ts (.operands l) := by
  simp only [operands, bind_eq_done] at h
  obtain ⟨token, feed₁, hpeek, h⟩ := h
  obtain ⟨rfl, feed₂, hadv⟩ := peek_done hpeek
  split at h
  · next hnot =>
    simp only [bind_eq_done] at h
    obtain ⟨token', feed₃, hadv', o, feed₄, hop, h⟩ := h
    rw [hadv] at hadv'
    cases hadv'
    have hn := advance_done hw hadv (by rw [hnot]; nofun)
    cases hkind : o.kind.arithOp? with
    | none => rw [hkind] at h; cases h
    | some op =>
      simp only [hkind, bind_eq_done, pure_eq_done] at h
      obtain ⟨x, feed₅, hx, rest, feed₆, hrest, rfl, rfl⟩ := h
      have ho := advance_done (hn.whole hw) hop (by rintro heof; rw [heof] at hkind; cases hkind)
      obtain ⟨t, ht, hterm⟩ := ih.term (ho.whole (hn.whole hw)) hx
      obtain ⟨r, hr, hoperands⟩ := ih.operands (ht.whole (ho.whole (hn.whole hw))) hrest
      exact ⟨_, hn.cons (ho.cons (ht.trans hr)), .invertedOperand hnot hkind hterm hoperands⟩
  · cases hkind : token.kind.arithOp? with
    | none =>
      rw [hkind] at h
      obtain ⟨rfl, rfl⟩ := pure_eq_done.mp h
      exact ⟨[], .refl _, .noOperands⟩
    | some op =>
      simp only [hkind, bind_eq_done, pure_eq_done] at h
      obtain ⟨token', feed₃, hadv', x, feed₅, hx, rest, feed₆, hrest, rfl, rfl⟩ := h
      rw [hadv] at hadv'
      cases hadv'
      have ho := advance_done hw hadv (by rintro heof; rw [heof] at hkind; cases hkind)
      obtain ⟨t, ht, hterm⟩ := ih.term (ho.whole hw) hx
      obtain ⟨r, hr, hoperands⟩ := ih.operands (ht.whole (ho.whole hw)) hrest
      exact ⟨_, ho.cons (ht.trans hr), .operand hkind hterm hoperands⟩

/-- No operand starts at the end of the text. -/
theorem operand_ne_eof {w : Token} {x : Term.Kind × Bool}
    (h : operand fuel w feed = .done x feed') : w.kind ≠ .eof := by
  intro heof
  cases fuel with
  | zero => cases h
  | succ fuel =>
    rw [operand, heof] at h
    cases h

theorem term_sound (ih : ExprSound fuel) {t : Term} (hw : feed.Whole)
    (h : term (fuel + 1) feed = .done t feed') :
    ∃ ts, Took feed ts feed' ∧ Spells ts (.term t) := by
  simp only [term, bind_eq_done] at h
  obtain ⟨first, feed₁, hadv, h⟩ := h
  split at h
  · next hnot =>
    simp only [bind_eq_done, lastSpan_eq_done, pure_eq_done] at h
    obtain ⟨w, feed₂, hadv', ⟨kind, negate⟩, feed₃, hop, _, _, ⟨rfl, rfl⟩, rfl, rfl⟩ := h
    have hn := advance_done hw hadv (by rw [hnot]; nofun)
    have ht := advance_done (hn.whole hw) hadv' (operand_ne_eof hop)
    obtain ⟨ts, hts, hspell⟩ := ih.operand (ht.whole (hn.whole hw)) hop
    refine ⟨first :: w :: ts, hn.cons (ht.cons hts), ?_⟩
    rw [(ht.cons hts).through (by simp)]
    exact .invertedTerm hnot hspell
  · simp only [bind_eq_done, lastSpan_eq_done, pure_eq_done] at h
    obtain ⟨⟨kind, negate⟩, feed₃, hop, _, _, ⟨rfl, rfl⟩, rfl, rfl⟩ := h
    have ht := advance_done hw hadv (operand_ne_eof hop)
    obtain ⟨ts, hts, hspell⟩ := ih.operand (ht.whole hw) hop
    refine ⟨first :: ts, ht.cons hts, ?_⟩
    rw [(ht.cons hts).through (by simp)]
    exact .term hspell

theorem operand_sound (ih : ExprSound fuel) {w : Token} {kind : Term.Kind} {negate : Bool}
    (hw : feed.Whole) (h : operand (fuel + 1) w feed = .done (kind, negate) feed') :
    ∃ ts, Took feed ts feed' ∧ Spells (w :: ts) (.operand kind negate) := by
  rw [operand] at h
  generalize hk : w.kind = k at h
  split at h
  · simp only [bind_eq_done, pure_eq_done] at h
    obtain ⟨e, feed₁, he, c, feed₂, hc, heq, rfl⟩ := h
    cases heq
    obtain ⟨ts, hts, hexpr⟩ := ih.expression hw he
    obtain ⟨hclose, htook⟩ := expect_done (hts.whole hw) (by nofun) hc
    exact ⟨ts ++ [c], hts.trans htook, .group hk hexpr hclose⟩
  · simp only [bind_eq_done, pure_eq_done] at h
    obtain ⟨n, feed₁, hn, heq, rfl⟩ := h
    cases heq
    obtain ⟨rfl, hvalue⟩ := numeral_done.mp hn
    exact ⟨[], .refl _, .number hk hvalue⟩
  · obtain ⟨heq, rfl⟩ := pure_eq_done.mp h
    cases heq
    exact ⟨[], .refl _, .str hk⟩
  · obtain ⟨heq, rfl⟩ := pure_eq_done.mp h
    cases heq
    exact ⟨[], .refl _, .trueWord hk⟩
  · obtain ⟨heq, rfl⟩ := pure_eq_done.mp h
    cases heq
    exact ⟨[], .refl _, .falseWord hk⟩
  · obtain ⟨heq, rfl⟩ := pure_eq_done.mp h
    cases heq
    exact ⟨[], .refl _, .nullWord hk⟩
  · simp only [bind_eq_done, pure_eq_done] at h
    obtain ⟨v, feed₁, hv, heq, rfl⟩ := h
    cases heq
    obtain ⟨ts, hts, hvar⟩ := variableFrom_sound hw hv
    exact ⟨ts, hts, .var hvar⟩
  · simp only [bind_eq_done, pure_eq_done] at h
    obtain ⟨v, feed₁, hv, heq, rfl⟩ := h
    cases heq
    obtain ⟨ts, hts, hvar⟩ := variableFrom_sound hw hv
    exact ⟨ts, hts, .var hvar⟩
  · simp only [bind_eq_done] at h
    obtain ⟨next, feed₁, hadv, h⟩ := h
    generalize hk' : next.kind = k' at h
    have htook (hne : k' ≠ .eof) : Took feed [next] feed₁ := advance_done hw hadv (hk' ▸ hne)
    split at h
    · simp only [bind_eq_done, pure_eq_done] at h
      obtain ⟨n, feed₂, hn, heq, rfl⟩ := h
      cases heq
      obtain ⟨rfl, hvalue⟩ := numeral_done.mp hn
      exact ⟨[next], htook nofun, .negativeNumber hk hk' hvalue⟩
    · simp only [bind_eq_done, pure_eq_done] at h
      obtain ⟨v, feed₂, hv, heq, rfl⟩ := h
      cases heq
      obtain ⟨ts, hts, hvar⟩ := variableFrom_sound ((htook nofun).whole hw) hv
      exact ⟨_, (htook nofun).cons hts, .negativeVar hk hvar⟩
    · simp only [bind_eq_done, pure_eq_done] at h
      obtain ⟨v, feed₂, hv, heq, rfl⟩ := h
      cases heq
      obtain ⟨ts, hts, hvar⟩ := variableFrom_sound ((htook nofun).whole hw) hv
      exact ⟨_, (htook nofun).cons hts, .negativeVar hk hvar⟩
    · cases h
  · cases h

theorem exprSound (fuel : Nat) : ExprSound fuel := by
  induction fuel with
  | zero => exact ⟨nofun, nofun, nofun, nofun⟩
  | succ fuel ih =>
    exact ⟨expression_sound ih, operands_sound ih, term_sound ih, operand_sound ih⟩

/-! ## Conditions -/

theorem condition_sound {c : Condition} (hw : feed.Whole)
    (h : condition fuel feed = .done c feed') :
    ∃ ts, Took feed ts feed' ∧ Spells ts (.cond c) := by
  simp only [condition, bind_eq_done] at h
  obtain ⟨left, feed₁, hleft, token, feed₂, hpeek, h⟩ := h
  obtain ⟨rfl, feed₃, hadv⟩ := peek_done hpeek
  obtain ⟨ts, hts, hexpr⟩ := (exprSound fuel).expression hw hleft
  cases hkind : token.kind.relOp? with
  | none =>
    simp only [hkind, bind_eq_done, lastSpan_eq_done, pure_eq_done] at h
    obtain ⟨_, _, ⟨rfl, rfl⟩, rfl, rfl⟩ := h
    refine ⟨ts, hts, ?_⟩
    rw [hts.through (hexpr.ne_nil rfl)]
    exact .test hexpr
  | some op =>
    simp only [hkind, bind_eq_done, lastSpan_eq_done, pure_eq_done] at h
    obtain ⟨token', feed₄, hadv', right, feed₅, hright, _, _, ⟨rfl, rfl⟩, rfl, rfl⟩ := h
    rw [hadv] at hadv'
    cases hadv'
    have ho := advance_done (hts.whole hw) hadv (by rintro heof; rw [heof] at hkind; cases hkind)
    obtain ⟨r, hr, hexpr'⟩ := (exprSound fuel).expression (ho.whole (hts.whole hw)) hright
    refine ⟨ts ++ token :: r, hts.trans (ho.cons hr), ?_⟩
    rw [hr.through (hexpr'.ne_nil rfl)]
    exact .comparison hexpr hkind hexpr'

theorem conditionsRest_sound {l : List (BoolOp × Condition)} (hw : feed.Whole)
    (h : conditionsRest fuel feed = .done l feed') :
    ∃ ts, Took feed ts feed' ∧ Spells ts (.moreConds l) := by
  induction fuel generalizing feed l with
  | zero => cases h
  | succ fuel ih =>
    simp only [conditionsRest, bind_eq_done] at h
    obtain ⟨token, feed₁, hpeek, h⟩ := h
    obtain ⟨rfl, feed₂, hadv⟩ := peek_done hpeek
    cases hkind : token.kind.boolOp? with
    | none =>
      rw [hkind] at h
      obtain ⟨rfl, rfl⟩ := pure_eq_done.mp h
      exact ⟨[], .refl _, .noConds⟩
    | some op =>
      simp only [hkind, bind_eq_done, pure_eq_done] at h
      obtain ⟨token', feed₃, hadv', x, feed₄, hx, rest, feed₅, hrest, rfl, rfl⟩ := h
      rw [hadv] at hadv'
      cases hadv'
      have ho := advance_done hw hadv (by rintro heof; rw [heof] at hkind; cases hkind)
      obtain ⟨c, hc, hcond⟩ := condition_sound (ho.whole hw) hx
      obtain ⟨r, hr, hmore⟩ := ih (hc.whole (ho.whole hw)) hrest
      exact ⟨_, ho.cons (hc.trans hr), .nextCond hkind hcond hmore⟩

theorem conditions_sound {c : Conditions} (hw : feed.Whole)
    (h : conditions fuel feed = .done c feed') :
    ∃ ts, Took feed ts feed' ∧ Spells ts (.conds c) := by
  simp only [conditions, bind_eq_done, lastSpan_eq_done, pure_eq_done] at h
  obtain ⟨first, feed₁, hfirst, rest, feed₂, hrest, _, _, ⟨rfl, rfl⟩, rfl, rfl⟩ := h
  obtain ⟨c, hc, hcond⟩ := condition_sound hw hfirst
  obtain ⟨r, hr, hmore⟩ := conditionsRest_sound (hc.whole hw) hrest
  refine ⟨c ++ r, hc.trans hr, ?_⟩
  rw [(hc.trans hr).through (by simp [hcond.ne_nil rfl])]
  exact .conds hcond hmore

/-! ## Calls and parameters -/

theorem argumentsRest_sound {l : List Expr} (hw : feed.Whole)
    (h : argumentsRest fuel feed = .done l feed') :
    ∃ ts, Took feed ts feed' ∧ Spells ts (.moreArguments l) := by
  induction fuel generalizing feed l with
  | zero => cases h
  | succ fuel ih =>
    simp only [argumentsRest, bind_eq_done] at h
    obtain ⟨e, feed₁, he, c, feed₂, hadv, h⟩ := h
    obtain ⟨ts, hts, hexpr⟩ := (exprSound fuel).expression hw he
    generalize hk : c.kind = k at h
    have hc (hne : k ≠ .eof) : Took feed₁ [c] feed₂ := advance_done (hts.whole hw) hadv (hk ▸ hne)
    split at h
    · simp only [bind_eq_done, pure_eq_done] at h
      obtain ⟨rest, feed₃, hrest, rfl, rfl⟩ := h
      obtain ⟨r, hr, hmore⟩ := ih ((hc nofun).whole (hts.whole hw)) hrest
      exact ⟨_, hts.trans ((hc nofun).cons hr), .nextArgument hexpr hk hmore⟩
    · obtain ⟨rfl, rfl⟩ := pure_eq_done.mp h
      exact ⟨_, hts.trans (hc nofun), .lastArgument hexpr hk⟩
    · cases h

theorem arguments_sound {l : List Expr} (hw : feed.Whole)
    (h : arguments fuel feed = .done l feed') :
    ∃ ts, Took feed ts feed' ∧ Spells ts (.arguments l) := by
  simp only [arguments, bind_eq_done] at h
  obtain ⟨closed, feed₁, heat, h⟩ := h
  rcases eat_done hw (by nofun) heat with ⟨rfl, c, hc, htook⟩ | ⟨rfl, rfl, -⟩
  · obtain ⟨rfl, rfl⟩ := pure_eq_done.mp h
    exact ⟨[c], htook, .noArguments hc⟩
  · obtain ⟨ts, hts, hmore⟩ := argumentsRest_sound hw h
    exact ⟨ts, hts, .someArguments hmore⟩

theorem parametersRest_sound {l : List (Bool × String)} (hw : feed.Whole)
    (h : parametersRest fuel feed = .done l feed') :
    ∃ ts, Took feed ts feed' ∧ Spells ts (.moreParameters l) := by
  induction fuel generalizing feed l with
  | zero => cases h
  | succ fuel ih =>
    simp only [parametersRest, bind_eq_done] at h
    obtain ⟨out, feed₁, heat, n, feed₂, hname, c, feed₃, hadv, h⟩ := h
    generalize hk : c.kind = k at h
    rcases eat_done hw (by nofun) heat with ⟨rfl, s, hstar, hs⟩ | ⟨rfl, rfl, -⟩
    · obtain ⟨hident, hn⟩ := expectName_done (hs.whole hw) hname
      have hw₂ := hn.whole (hs.whole hw)
      have hc (hne : k ≠ .eof) : Took feed₂ [c] feed₃ := advance_done hw₂ hadv (hk ▸ hne)
      split at h
      · simp only [bind_eq_done, pure_eq_done] at h
        obtain ⟨rest, feed₄, hrest, rfl, rfl⟩ := h
        obtain ⟨r, hr, hmore⟩ := ih ((hc nofun).whole hw₂) hrest
        exact ⟨_, hs.cons (hn.cons ((hc nofun).cons hr)), .nextOut hstar hident hk hmore⟩
      · obtain ⟨rfl, rfl⟩ := pure_eq_done.mp h
        exact ⟨_, hs.cons (hn.cons (hc nofun)), .lastOut hstar hident hk⟩
      · cases h
    · obtain ⟨hident, hn⟩ := expectName_done hw hname
      have hc (hne : k ≠ .eof) : Took feed₂ [c] feed₃ :=
        advance_done (hn.whole hw) hadv (hk ▸ hne)
      split at h
      · simp only [bind_eq_done, pure_eq_done] at h
        obtain ⟨rest, feed₄, hrest, rfl, rfl⟩ := h
        obtain ⟨r, hr, hmore⟩ := ih ((hc nofun).whole (hn.whole hw)) hrest
        exact ⟨_, hn.cons ((hc nofun).cons hr), .nextParameter hident hk hmore⟩
      · obtain ⟨rfl, rfl⟩ := pure_eq_done.mp h
        exact ⟨_, hn.cons (hc nofun), .lastParameter hident hk⟩
      · cases h

theorem parameters_sound {l : List (Bool × String)} (hw : feed.Whole)
    (h : parameters fuel feed = .done l feed') :
    ∃ ts, Took feed ts feed' ∧ Spells ts (.parameters l) := by
  simp only [parameters, bind_eq_done] at h
  obtain ⟨closed, feed₁, heat, h⟩ := h
  rcases eat_done hw (by nofun) heat with ⟨rfl, c, hc, htook⟩ | ⟨rfl, rfl, -⟩
  · obtain ⟨rfl, rfl⟩ := pure_eq_done.mp h
    exact ⟨[c], htook, .noParameters hc⟩
  · obtain ⟨ts, hts, hmore⟩ := parametersRest_sound hw h
    exact ⟨ts, hts, .someParameters hmore⟩

theorem moduleCallTail_sound {module : String} {start : Span} {s : Stmt} (hw : feed.Whole)
    (h : moduleCallTail fuel module start feed = .done s feed') :
    ∃ n o a args, n.kind = .identifier ∧ o.kind = .openParen ∧ Spells a (.arguments args) ∧
      Took feed (n :: o :: a) feed' ∧ s = .moduleCall module ⟨n.text, args, start.through a⟩ := by
  simp only [moduleCallTail, bind_eq_done, lastSpan_eq_done, pure_eq_done] at h
  obtain ⟨n, feed₁, hname, _, feed₂, hreject, o, feed₃, hopen, args, feed₄, hargs,
    _, _, ⟨rfl, rfl⟩, rfl, rfl⟩ := h
  obtain rfl := rejectDot_done hreject
  obtain ⟨hident, hn⟩ := expectName_done hw hname
  obtain ⟨hparen, ho⟩ := expect_done (hn.whole hw) (by nofun) hopen
  obtain ⟨a, ha, harguments⟩ := arguments_sound (ho.whole (hn.whole hw)) hargs
  refine ⟨n, o, a, args, hident, hparen, harguments, hn.cons (ho.cons ha), ?_⟩
  rw [ha.through (harguments.ne_nil rfl)]

theorem callStmt_sound {s : Stmt} (hw : feed.Whole) (h : callStmt fuel feed = .done s feed') :
    ∃ ts, Took feed ts feed' ∧ Spells ts (.item (.stmt s) false) := by
  simp only [callStmt, bind_eq_done] at h
  obtain ⟨n, feed₁, hname, c, feed₂, hadv, h⟩ := h
  obtain ⟨hident, hn⟩ := expectName_done hw hname
  generalize hk : c.kind = k at h
  have hc (hne : k ≠ .eof) : Took feed₁ [c] feed₂ := advance_done (hn.whole hw) hadv (hk ▸ hne)
  split at h
  · simp only [bind_eq_done, lastSpan_eq_done, pure_eq_done] at h
    obtain ⟨args, feed₃, hargs, _, _, ⟨rfl, rfl⟩, rfl, rfl⟩ := h
    obtain ⟨a, ha, harguments⟩ := arguments_sound ((hc nofun).whole (hn.whole hw)) hargs
    refine ⟨_, hn.cons ((hc nofun).cons ha), ?_⟩
    rw [ha.through (harguments.ne_nil rfl)]
    exact .call hident hk harguments
  · obtain ⟨n', o, a, args, hident', hparen, harguments, htook, rfl⟩ :=
      moduleCallTail_sound ((hc nofun).whole (hn.whole hw)) h
    exact ⟨_, hn.cons ((hc nofun).cons htook), .moduleCall hident hk hident' hparen harguments⟩
  · cases h

theorem assignment_sound {s : Stmt} (hw : feed.Whole) (h : assignment fuel feed = .done s feed') :
    ∃ ts, Took feed ts feed' ∧ Spells ts (.item (.stmt s) false) := by
  simp only [assignment, bind_eq_done] at h
  obtain ⟨w, feed₁, hadv, h⟩ := h
  generalize hk : w.kind = k at h
  split at h
  · next tier =>
    simp only [bind_eq_done, pure_eq_done] at h
    obtain ⟨target, feed₂, htarget, q, feed₃, heq, value, feed₄, hvalue, rfl, rfl⟩ := h
    have hword := advance_done hw hadv (by rw [hk]; nofun)
    obtain ⟨ts, hts, hvar⟩ := tierVariable_sound (hword.whole hw) hk htarget
    have hw₂ := hts.whole (hword.whole hw)
    obtain ⟨hq, hqt⟩ := expect_done hw₂ (by nofun) heq
    obtain ⟨e, he, hexpr⟩ := (exprSound fuel).expression (hqt.whole hw₂) hvalue
    exact ⟨_, (hword.cons hts).trans (hqt.cons he), .assign hvar hq hexpr⟩
  · cases h

/-! ## Blocks -/

/-- The tokens of the items of a block were taken, and the end of the block was found. -/
def Ended (feed : Feed) (ts : List Token) (feed' : Feed) : Enclosure → Prop
  | .program => Took feed ts feed' ∧ feed'.items = []
  | .braces => ∃ c, c.kind = .closeBrace ∧ Took feed (ts ++ [c]) feed'
  | .function => Took feed ts feed'

theorem Ended.before {us ts : List Token} {enclosure : Enclosure} (hu : Took feed us feed₁)
    (h : Ended feed₁ ts feed' enclosure) : Ended feed (us ++ ts) feed' enclosure := by
  cases enclosure with
  | program => exact ⟨hu.trans h.1, h.2⟩
  | braces =>
    obtain ⟨c, hc, htook⟩ := h
    refine ⟨c, hc, ?_⟩
    rw [List.append_assoc]
    exact hu.trans htook
  | function => exact hu.trans h

/-- The items go on at the front of what is left. -/
theorem Ended.head {ts : List Token} {enclosure : Enclosure} (h : Ended feed ts feed' enclosure) :
    ∀ t ∈ ts.head?, t ∈ feed.items.head? := by
  intro t ht
  have hitems : ∃ us, feed.items = ts ++ us := by
    cases enclosure with
    | program => exact ⟨_, h.1.items⟩
    | braces =>
      obtain ⟨c, -, htook⟩ := h
      exact ⟨_, by rw [htook.items, List.append_assoc]⟩
    | function => exact ⟨_, Took.items h⟩
  obtain ⟨us, hus⟩ := hitems
  rw [hus, List.head?_append, ht]
  rfl

/-- With the given fuel, what is accepted as a statement or a block is spelled. -/
structure BlockSound (fuel : Nat) : Prop where
  items : ∀ {feed feed' enclosure opening l}, feed.Whole →
    items fuel enclosure opening feed = .done l feed' →
    ∃ ts, Ended feed ts feed' enclosure ∧ Spells ts (.items l)
  block : ∀ {feed feed' enclosure opening b}, feed.Whole →
    block fuel enclosure opening feed = .done b feed' →
    ∃ ts l, Ended feed ts feed' enclosure ∧ Spells ts (.items l) ∧
      b = .ofItems l (opening.merge feed'.last)
  bracedBlock : ∀ {feed feed' b}, feed.Whole → bracedBlock fuel feed = .done b feed' →
    ∃ ts, Took feed ts feed' ∧ Spells ts (.body b)
  ifStmt : ∀ {feed feed' s span}, feed.Whole → ifStmt fuel feed = .done (s, span) feed' →
    ∃ ts, Took feed ts feed' ∧ Spells ts (.ifStmt s span)
  elseBranch : ∀ {feed feed' b}, feed.Whole → elseBranch fuel feed = .done b feed' →
    ∃ ts, Took feed ts feed' ∧ Spells ts (.otherwise b)
  whileStmt : ∀ {feed feed' s}, feed.Whole → whileStmt fuel feed = .done s feed' →
    ∃ ts, Took feed ts feed' ∧ Spells ts (.item (.stmt s) false)
  forStmt : ∀ {feed feed' s}, feed.Whole → forStmt fuel feed = .done s feed' →
    ∃ ts, Took feed ts feed' ∧ Spells ts (.item (.stmt s) false)
  fnItem : ∀ {feed feed' w x}, feed.Whole → w.kind = .fnWord →
    fnItem fuel w.span feed = .done x feed' →
    ∃ ts bare, Took feed ts feed' ∧ Spells (w :: ts) (.item x bare) ∧
      (bare = true → ∀ t ∈ feed'.items.head?, t.kind ≠ .fnWord)

section

variable (ih : BlockSound fuel)
include ih

theorem block_sound {enclosure : Enclosure} {opening : Span} {b : Block} (hw : feed.Whole)
    (h : block (fuel + 1) enclosure opening feed = .done b feed') :
    ∃ ts l, Ended feed ts feed' enclosure ∧ Spells ts (.items l) ∧
      b = .ofItems l (opening.merge feed'.last) := by
  simp only [block, bind_eq_done, lastSpan_eq_done, pure_eq_done] at h
  obtain ⟨l, feed₁, hitems, _, _, ⟨rfl, rfl⟩, rfl, rfl⟩ := h
  obtain ⟨ts, hended, hspell⟩ := ih.items hw hitems
  exact ⟨ts, l, hended, hspell, rfl⟩

/-- A block in braces whose opening brace has been taken. -/
theorem braces_sound {o : Token} {b : Block} (hw : feed.Whole) (ho : o.kind = .openBrace)
    (h : block fuel .braces o.span feed = .done b feed') :
    ∃ ts, Took feed ts feed' ∧ Spells (o :: ts) (.body b) := by
  obtain ⟨ts, l, ⟨c, hc, htook⟩, hspell, rfl⟩ := ih.block hw h
  refine ⟨_, htook, ?_⟩
  rw [htook.through (by simp)]
  exact .body ho hspell hc

theorem bracedBlock_sound {b : Block} (hw : feed.Whole)
    (h : bracedBlock (fuel + 1) feed = .done b feed') :
    ∃ ts, Took feed ts feed' ∧ Spells ts (.body b) := by
  simp only [bracedBlock, bind_eq_done] at h
  obtain ⟨o, feed₁, hopen, h⟩ := h
  obtain ⟨hbrace, ho⟩ := expect_done hw (by nofun) hopen
  obtain ⟨ts, hts, hbody⟩ := braces_sound ih (ho.whole hw) hbrace h
  exact ⟨_, ho.cons hts, hbody⟩

theorem ifStmt_sound {s : Stmt} {span : Span} (hw : feed.Whole)
    (h : ifStmt (fuel + 1) feed = .done (s, span) feed') :
    ∃ ts, Took feed ts feed' ∧ Spells ts (.ifStmt s span) := by
  simp only [ifStmt, bind_eq_done, lastSpan_eq_done, pure_eq_done] at h
  obtain ⟨w, feed₁, hword, o, feed₂, hopen, test, feed₃, htest, p, feed₄, hclose, body, feed₅,
    hbody, alternative, feed₆, helse, _, _, ⟨rfl, rfl⟩, heq, rfl⟩ := h
  cases heq
  obtain ⟨hkind, hw₀⟩ := expect_done hw (by nofun) hword
  have hw₁ := hw₀.whole hw
  obtain ⟨hparen, ho⟩ := expect_done hw₁ (by nofun) hopen
  have hw₂ := ho.whole hw₁
  obtain ⟨c, hc, hconds⟩ := conditions_sound hw₂ htest
  have hw₃ := hc.whole hw₂
  obtain ⟨hparen', hp⟩ := expect_done hw₃ (by nofun) hclose
  have hw₄ := hp.whole hw₃
  obtain ⟨b, hb, hspell⟩ := ih.bracedBlock hw₄ hbody
  obtain ⟨r, hr, hother⟩ := ih.elseBranch (hb.whole hw₄) helse
  refine ⟨_, hw₀.cons (ho.cons (hc.trans (hp.cons (hb.trans hr)))), ?_⟩
  rw [(hb.trans hr).through (by simp [hspell.ne_nil rfl])]
  exact .ifStmt hkind hparen hconds hparen' hspell hother

theorem elseBranch_sound {b : Option Block} (hw : feed.Whole)
    (h : elseBranch (fuel + 1) feed = .done b feed') :
    ∃ ts, Took feed ts feed' ∧ Spells ts (.otherwise b) := by
  simp only [elseBranch, bind_eq_done] at h
  obtain ⟨found, feed₁, heat, h⟩ := h
  rcases eat_done hw (by nofun) heat with ⟨rfl, e, hkind, he⟩ | ⟨rfl, rfl, -⟩
  · simp only [if_true, bind_eq_done] at h
    obtain ⟨next, feed₂, hpeek, h⟩ := h
    obtain ⟨rfl, -⟩ := peek_done hpeek
    generalize next.kind = k at h
    split at h
    · simp only [bind_eq_done] at h
      obtain ⟨⟨s, span⟩, feed₃, hif, h⟩ := h
      obtain ⟨rfl, rfl⟩ := pure_eq_done.mp h
      obtain ⟨ts, hts, hspell⟩ := ih.ifStmt (he.whole hw) hif
      exact ⟨_, he.cons hts, .elseIf hkind hspell⟩
    · simp only [bind_eq_done, pure_eq_done] at h
      obtain ⟨body, feed₃, hbody, rfl, rfl⟩ := h
      obtain ⟨ts, hts, hspell⟩ := ih.bracedBlock (he.whole hw) hbody
      exact ⟨_, he.cons hts, .elseBody hkind hspell⟩
    · cases h
  · obtain ⟨rfl, rfl⟩ := pure_eq_done.mp h
    exact ⟨[], .refl _, .noElse⟩

theorem whileStmt_sound {s : Stmt} (hw : feed.Whole)
    (h : whileStmt (fuel + 1) feed = .done s feed') :
    ∃ ts, Took feed ts feed' ∧ Spells ts (.item (.stmt s) false) := by
  simp only [whileStmt, bind_eq_done, lastSpan_eq_done, pure_eq_done] at h
  obtain ⟨w, feed₁, hword, o, feed₂, hopen, test, feed₃, htest, p, feed₄, hclose, body, feed₅,
    hbody, _, _, ⟨rfl, rfl⟩, rfl, rfl⟩ := h
  obtain ⟨hkind, hw₀⟩ := expect_done hw (by nofun) hword
  have hw₁ := hw₀.whole hw
  obtain ⟨hparen, ho⟩ := expect_done hw₁ (by nofun) hopen
  have hw₂ := ho.whole hw₁
  obtain ⟨c, hc, hconds⟩ := conditions_sound hw₂ htest
  have hw₃ := hc.whole hw₂
  obtain ⟨hparen', hp⟩ := expect_done hw₃ (by nofun) hclose
  obtain ⟨b, hb, hspell⟩ := ih.bracedBlock (hp.whole hw₃) hbody
  refine ⟨_, hw₀.cons (ho.cons (hc.trans (hp.cons hb))), ?_⟩
  rw [hb.through (hspell.ne_nil rfl)]
  exact .whileLoop hkind hparen hconds hparen' hspell

theorem forStmt_sound {s : Stmt} (hw : feed.Whole)
    (h : forStmt (fuel + 1) feed = .done s feed') :
    ∃ ts, Took feed ts feed' ∧ Spells ts (.item (.stmt s) false) := by
  simp only [forStmt, bind_eq_done, lastSpan_eq_done, pure_eq_done] at h
  obtain ⟨w, feed₁, hword, o, feed₂, hopen, dest, feed₃, hdest, m, feed₄, hsemi, src, feed₅, hsrc,
    p, feed₆, hclose, body, feed₇, hbody, _, _, ⟨rfl, rfl⟩, rfl, rfl⟩ := h
  obtain ⟨hkind, hw₀⟩ := expect_done hw (by nofun) hword
  have hw₁ := hw₀.whole hw
  obtain ⟨hparen, ho⟩ := expect_done hw₁ (by nofun) hopen
  have hw₂ := ho.whole hw₁
  obtain ⟨d, hd, hterm⟩ := (exprSound fuel).term hw₂ hdest
  have hw₃ := hd.whole hw₂
  obtain ⟨hsemi', hm⟩ := expect_done hw₃ (by nofun) hsemi
  have hw₄ := hm.whole hw₃
  obtain ⟨s, hs, hterm'⟩ := (exprSound fuel).term hw₄ hsrc
  have hw₅ := hs.whole hw₄
  obtain ⟨hparen', hp⟩ := expect_done hw₅ (by nofun) hclose
  obtain ⟨b, hb, hspell⟩ := ih.bracedBlock (hp.whole hw₅) hbody
  refine ⟨_, hw₀.cons (ho.cons (hd.trans (hm.cons (hs.trans (hp.cons hb))))), ?_⟩
  rw [hb.through (hspell.ne_nil rfl)]
  exact .forLoop hkind hparen hterm hsemi' hterm' hparen' hspell

theorem fnItem_sound {w : Token} {x : Item} (hw : feed.Whole) (hk : w.kind = .fnWord)
    (h : fnItem (fuel + 1) w.span feed = .done x feed') :
    ∃ ts bare, Took feed ts feed' ∧ Spells (w :: ts) (.item x bare) ∧
      (bare = true → ∀ t ∈ feed'.items.head?, t.kind ≠ .fnWord) := by
  simp only [fnItem, bind_eq_done] at h
  obtain ⟨n, feed₁, hname, c, feed₂, hadv, h⟩ := h
  obtain ⟨hident, hn⟩ := expectName_done hw hname
  have hw₁ := hn.whole hw
  generalize hk' : c.kind = k at h
  have hc (hne : k ≠ .eof) : Took feed₁ [c] feed₂ := advance_done hw₁ hadv (hk' ▸ hne)
  split at h
  · simp only [bind_eq_done, pure_eq_done] at h
    obtain ⟨s, feed₃, htail, rfl, rfl⟩ := h
    obtain ⟨n', o, a, args, hident', hparen, harguments, htook, rfl⟩ :=
      moduleCallTail_sound ((hc nofun).whole hw₁) htail
    exact ⟨_, false, hn.cons ((hc nofun).cons htook),
      .fnModuleCall hk hident hk' hident' hparen harguments, nofun⟩
  · simp only [bind_eq_done] at h
    obtain ⟨params, feed₃, hparams, body, feed₄, hbody, e, feed₅, hend, h⟩ := h
    have hw₂ := (hc nofun).whole hw₁
    obtain ⟨ps, hps, hparameters⟩ := parameters_sound hw₂ hparams
    have hw₃ := hps.whole hw₂
    obtain ⟨is, l, hitems, hspell, rfl⟩ := ih.block hw₃ hbody
    rw [(hps.trans hitems).through (by simp [hparameters.ne_nil rfl])] at h
    split at h
    · next hendWord =>
      simp only [bind_eq_done, lastSpan_eq_done, pure_eq_done] at h
      obtain ⟨found, feed₆, heat, _, _, ⟨rfl, rfl⟩, rfl, rfl⟩ := h
      have hw₄ := Took.whole hitems hw₃
      have he := advance_done hw₄ hend (by rw [hendWord]; nofun)
      rcases eat_done (he.whole hw₄) (by nofun) heat with ⟨-, g, hfn, hg⟩ | ⟨-, rfl, hnext⟩
      · have htook := hn.cons ((hc nofun).cons (hps.trans (hitems.trans (he.cons hg))))
        refine ⟨_, false, htook, ?_, nofun⟩
        rw [hg.last]
        exact .fnEndFn hk hident hk' hparameters hspell hendWord hfn
      · have htook := hn.cons ((hc nofun).cons (hps.trans (hitems.trans he)))
        refine ⟨_, true, htook, ?_, fun _ => hnext⟩
        rw [he.last]
        exact .fnEnd hk hident hk' hparameters hspell hendWord
    · cases h
  · cases h

theorem items_sound {enclosure : Enclosure} {opening : Span} {l : List Item} (hw : feed.Whole)
    (h : items (fuel + 1) enclosure opening feed = .done l feed') :
    ∃ ts, Ended feed ts feed' enclosure ∧ Spells ts (.items l) := by
  simp only [items, bind_eq_done] at h
  obtain ⟨t, feed₁, hpeek, h⟩ := h
  obtain ⟨rfl, feed₂, hadv⟩ := peek_done hpeek
  generalize hk : t.kind = k at h
  have htook (hne : k ≠ .eof) : Took feed₁ [t] feed₂ := advance_done hw hadv (hk ▸ hne)
  have hnext {ts : List Token} {x : Item} {bare : Bool} {feed₃ : Feed} {rest : List Item}
      (hts : Took feed₁ ts feed₃) (hx : Spells ts (.item x bare))
      (hbare : bare = true → ∀ t ∈ feed₃.items.head?, t.kind ≠ .fnWord)
      (hrest : items fuel enclosure opening feed₃ = .done rest feed') :
      ∃ ts, Ended feed₁ ts feed' enclosure ∧ Spells ts (.items (x :: rest)) := by
    obtain ⟨r, hr, hspell⟩ := ih.items (hts.whole hw) hrest
    exact ⟨_, hr.before hts, .nextItem hx hspell fun hb t ht => hbare hb t (hr.head t ht)⟩
  have hadvanced {t' : Token} {feed₃ : Feed} (h : advance feed₁ = .done t' feed₃) :
      feed₂ = feed₃ := by
    rw [hadv] at h
    cases h
    rfl
  split at h
  · -- a block
    simp only [bind_eq_done, pure_eq_done] at h
    obtain ⟨_, feed₃, hadv', inner, feed₄, hinner, rest, feed₅, hrest, rfl, rfl⟩ := h
    obtain rfl := hadvanced hadv'
    obtain ⟨ts, hts, hbody⟩ := braces_sound ih ((htook nofun).whole hw) hk hinner
    exact hnext ((htook nofun).cons hts) (.block hbody) nofun hrest
  · -- the end of a block in braces
    split at h
    · next henc =>
      simp only [bind_eq_done, pure_eq_done] at h
      obtain ⟨_, feed₃, hadv', rfl, rfl⟩ := h
      obtain rfl := hadvanced hadv'
      subst henc
      exact ⟨[], ⟨t, hk, htook nofun⟩, .noItems⟩
    · cases h
  · -- an assignment
    simp only [bind_eq_done, pure_eq_done] at h
    obtain ⟨s, feed₃, hs, rest, feed₄, hrest, rfl, rfl⟩ := h
    obtain ⟨ts, hts, hspell⟩ := assignment_sound hw hs
    exact hnext hts hspell nofun hrest
  · -- a call
    simp only [bind_eq_done, pure_eq_done] at h
    obtain ⟨s, feed₃, hs, rest, feed₄, hrest, rfl, rfl⟩ := h
    obtain ⟨ts, hts, hspell⟩ := callStmt_sound hw hs
    exact hnext hts hspell nofun hrest
  · -- a conditional statement
    simp only [bind_eq_done, pure_eq_done] at h
    obtain ⟨⟨s, span⟩, feed₃, hs, rest, feed₄, hrest, rfl, rfl⟩ := h
    obtain ⟨ts, hts, hspell⟩ := ih.ifStmt hw hs
    exact hnext hts (.ifItem hspell) nofun hrest
  · -- loops
    simp only [bind_eq_done, pure_eq_done] at h
    obtain ⟨s, feed₃, hs, rest, feed₄, hrest, rfl, rfl⟩ := h
    obtain ⟨ts, hts, hspell⟩ := ih.whileStmt hw hs
    exact hnext hts hspell nofun hrest
  · simp only [bind_eq_done, pure_eq_done] at h
    obtain ⟨s, feed₃, hs, rest, feed₄, hrest, rfl, rfl⟩ := h
    obtain ⟨ts, hts, hspell⟩ := ih.forStmt hw hs
    exact hnext hts hspell nofun hrest
  · -- statements of one word
    simp only [bind_eq_done, pure_eq_done] at h
    obtain ⟨_, feed₃, hadv', rest, feed₄, hrest, rfl, rfl⟩ := h
    obtain rfl := hadvanced hadv'
    exact hnext (htook nofun) (.endCode hk) nofun hrest
  · simp only [bind_eq_done, pure_eq_done] at h
    obtain ⟨_, feed₃, hadv', rest, feed₄, hrest, rfl, rfl⟩ := h
    obtain rfl := hadvanced hadv'
    exact hnext (htook nofun) (.breakLoop hk) nofun hrest
  · -- a definition, or a call of a function of a module
    simp only [bind_eq_done, pure_eq_done] at h
    obtain ⟨_, feed₃, hadv', x, feed₄, hx, rest, feed₅, hrest, rfl, rfl⟩ := h
    obtain rfl := hadvanced hadv'
    obtain ⟨ts, bare, hts, hspell, hbare⟩ := ih.fnItem ((htook nofun).whole hw) hk hx
    exact hnext ((htook nofun).cons hts) hspell hbare hrest
  · -- a semicolon
    simp only [bind_eq_done] at h
    obtain ⟨_, feed₃, hadv', hrest⟩ := h
    obtain rfl := hadvanced hadv'
    obtain ⟨r, hr, hspell⟩ := ih.items ((htook nofun).whole hw) hrest
    exact ⟨_, hr.before (htook nofun), .semicolon hk hspell⟩
  · -- the end of the text
    split at h
    · cases h
    · next henc =>
      obtain ⟨rfl, rfl⟩ := pure_eq_done.mp h
      refine ⟨[], ?_, .noItems⟩
      cases enclosure with
      | program => exact ⟨.refl _, items_of_eof hw hadv hk⟩
      | braces => exact absurd rfl henc
      | function => exact .refl _
  · -- the end of a function
    split at h
    · next henc =>
      obtain ⟨rfl, rfl⟩ := pure_eq_done.mp h
      subst henc
      exact ⟨[], .refl _, .noItems⟩
    · cases h
  · cases h

end

theorem blockSound (fuel : Nat) : BlockSound fuel := by
  induction fuel with
  | zero => exact ⟨nofun, nofun, nofun, nofun, nofun, nofun, nofun, nofun⟩
  | succ fuel ih =>
    exact ⟨items_sound ih, block_sound ih, bracedBlock_sound ih, ifStmt_sound ih,
      elseBranch_sound ih, whileStmt_sound ih, forStmt_sound ih, fnItem_sound ih⟩

end Parse
end TierScript
