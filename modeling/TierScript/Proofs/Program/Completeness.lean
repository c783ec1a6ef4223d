import TierScript.Proofs.Program.Soundness

/-!
# What is spelled is accepted

The converse of soundness: where tokens spell a phrase and what follows cannot continue it, the
parser takes exactly those tokens and gives that phrase (`Spells.accepts`). What may follow is told
by the kind of the next token, and the fuel that is needed is at most four units for each token.
There is one lemma for each rule of the grammar.
-/

namespace TierScript

open Parse

/-! ## What may follow a phrase -/

/-- A token of this kind does not continue an expression. -/
def Kind.endsExpr : Kind → Bool
  | .dot | .not | .plus | .minus | .star | .slash => false
  | _ => true

/-- A token of this kind does not continue a condition. -/
def Kind.endsCond (k : Kind) : Bool := k.endsExpr && k.relOp?.isNone

/-- A token of this kind starts an item or ends a block. -/
def Kind.endsItem : Kind → Bool
  | .semicolon | .openBrace | .closeBrace | .tier _ | .identifier | .fnWord | .ifWord | .whileWord
  | .forWord | .breakWord | .endcodeWord | .endWord | .eof => true
  | _ => false

namespace Kind

variable {k : Kind}

theorem arithOp?_of_endsExpr (h : k.endsExpr = true) : k.arithOp? = none := by
  cases k <;> first | rfl | cases h

theorem endsExpr_of_relOp? {op : RelOp} (h : k.relOp? = some op) : k.endsExpr = true := by
  cases k <;> first | rfl | cases h

theorem endsCond_of_boolOp? {op : BoolOp} (h : k.boolOp? = some op) : k.endsCond = true := by
  cases k <;> first | rfl | cases h

theorem endsExpr_of_endsItem (h : k.endsItem = true) : k.endsExpr = true := by
  cases k <;> first | rfl | cases h

end Kind

/-- Phrases that start like an operand or a parameter. -/
def Phrase.isValue : Phrase → Bool
  | .tierVar _ | .var _ | .operand _ _ | .term _ | .expr _ | .moreArguments _
  | .moreParameters _ => true
  | _ => false

theorem Spells.head_ne_closeParen {ts : List Token} {p : Phrase} (h : Spells ts p)
    (hp : p.isValue = true) : ∃ t us, ts = t :: us ∧ t.kind ≠ .closeParen := by
  induction h with
  | tierName hk | tierDotName hk | name hk | group hk | number hk | negativeNumber hk | str hk
  | trueWord hk | falseWord hk | nullWord hk | negativeVar hk | invertedTerm hk | lastParameter hk
  | nextParameter hk | lastOut hk | nextOut hk =>
    exact ⟨_, _, rfl, by rw [hk]; nofun⟩
  | tierVar _ ih | var _ ih | term _ ih => exact ih rfl
  | expr _ _ ih | lastArgument _ _ ih | nextArgument _ _ _ ih =>
    obtain ⟨t, us, rfl, ht⟩ := ih rfl
    exact ⟨t, _, rfl, ht⟩
  | _ => cases hp

/-- The kind of the token that is taken next from a whole feed. -/
def Feed.nextKind (feed : Feed) : Kind :=
  match feed.items with
  | t :: _ => t.kind
  | [] => .eof

theorem Took.nextKind {feed feed' : Feed} {t : Token} {ts : List Token}
    (h : Took feed (t :: ts) feed') : feed.nextKind = t.kind := by
  rw [Feed.nextKind, h.items]
  rfl

namespace Took

variable {feed feed' : Feed} {t : Token} {ts us : List Token}

/-- Tokens are taken one part after another. -/
theorem split (h : Took feed (ts ++ us) feed') :
    ∃ feed₁, Took feed ts feed₁ ∧ Took feed₁ us feed' := by
  refine ⟨⟨us ++ feed'.items, feed.stop, lastSpanOf feed.last ts⟩, ⟨?_, rfl, rfl⟩, rfl, h.stop, ?_⟩
  · rw [h.items, List.append_assoc]
  · rw [h.last, lastSpanOf_append]

theorem uncons (h : Took feed (t :: ts) feed') :
    ∃ feed₁, advance feed = .done t feed₁ ∧ Took feed [t] feed₁ ∧ Took feed₁ ts feed' := by
  rw [← List.singleton_append] at h
  obtain ⟨feed₁, h₁, h₂⟩ := h.split
  refine ⟨feed₁, ?_, h₁, h₂⟩
  obtain ⟨items, stop, last⟩ := feed₁
  obtain ⟨hitems, hstop, hlast⟩ := h₁
  dsimp only at hitems hstop hlast
  subst hstop hlast
  unfold advance
  rw [hitems]
  rfl

theorem eq_of_nil (h : Took feed [] feed') : feed' = feed := by
  obtain ⟨items, stop, last⟩ := feed
  obtain ⟨items', stop', last'⟩ := feed'
  obtain ⟨hitems, hstop, hlast⟩ := h
  dsimp only [List.nil_append, lastSpanOf_nil] at hitems hstop hlast
  rw [hitems, hstop, hlast]

theorem peek (h : Took feed (t :: ts) feed') : Parse.peek feed = .done t feed := by
  unfold Parse.peek
  rw [h.items]
  rfl

theorem expect {k : Kind} (h : Took feed (t :: ts) feed') (hk : t.kind = k) :
    ∃ feed₁, Parse.expect k feed = .done t feed₁ ∧ Took feed [t] feed₁ ∧ Took feed₁ ts feed' := by
  obtain ⟨feed₁, hadv, h₁, h₂⟩ := h.uncons
  refine ⟨feed₁, ?_, h₁, h₂⟩
  simp only [Parse.expect, bind_eq_done]
  exact ⟨t, feed₁, hadv, by rw [if_pos hk, pure_apply]⟩

theorem expectName (h : Took feed (t :: ts) feed') (hk : t.kind = .identifier) :
    ∃ feed₁, Parse.expectName feed = .done t feed₁ ∧ Took feed [t] feed₁ ∧ Took feed₁ ts feed' := by
  obtain ⟨feed₁, hadv, h₁, h₂⟩ := h.uncons
  refine ⟨feed₁, ?_, h₁, h₂⟩
  simp only [Parse.expectName, bind_eq_done]
  exact ⟨t, feed₁, hadv, by rw [if_pos hk, pure_apply]⟩

theorem eat {k : Kind} (h : Took feed (t :: ts) feed') (hk : t.kind = k) :
    ∃ feed₁, Parse.eat k feed = .done true feed₁ ∧ Took feed [t] feed₁ ∧ Took feed₁ ts feed' := by
  obtain ⟨feed₁, hadv, h₁, h₂⟩ := h.uncons
  refine ⟨feed₁, ?_, h₁, h₂⟩
  simp only [Parse.eat, bind_eq_done]
  refine ⟨t, feed, h.peek, ?_⟩
  rw [if_pos hk]
  simp only [bind_eq_done]
  exact ⟨t, feed₁, hadv, pure_apply _ _⟩

end Took

namespace Parse

variable {feed feed' : Feed} {fuel : Nat}

theorem peek_whole (hw : feed.Whole) : ∃ t, peek feed = .done t feed ∧ t.kind = feed.nextKind := by
  obtain ⟨e, he, hk⟩ := hw.stop
  unfold peek Feed.nextKind
  cases feed.items with
  | nil => exact ⟨e, by rw [he], hk⟩
  | cons t ts => exact ⟨t, rfl, rfl⟩

theorem eat_other {k : Kind} (hw : feed.Whole) (hk : feed.nextKind ≠ k) :
    eat k feed = .done false feed := by
  obtain ⟨t, hpeek, ht⟩ := peek_whole hw
  simp only [eat, bind_eq_done]
  refine ⟨t, feed, hpeek, ?_⟩
  rw [if_neg (ht ▸ hk), pure_apply]

theorem rejectDot_other {qualified : String} (hw : feed.Whole) (hk : feed.nextKind ≠ .dot) :
    rejectDot qualified feed = .done () feed := by
  obtain ⟨t, hpeek, ht⟩ := peek_whole hw
  simp only [rejectDot, bind_eq_done]
  refine ⟨t, feed, hpeek, ?_⟩
  rw [if_neg (ht ▸ hk), pure_apply]

/-! ## The parser on spelled phrases -/

/-- The parser takes the tokens for the phrase, given enough fuel, if what follows does not continue
    it. The fuel is counted in tokens: no rule of the parser needs more than four units for each. -/
def Accepts (ts : List Token) : Phrase → Prop
  | .tierVar v => ∃ w us, ts = w :: us ∧ w.kind = .tier v.tier ∧
      ∀ {feed feed'}, feed.Whole → Took feed us feed' → feed'.nextKind ≠ .dot →
        tierVariable v.tier feed = .done v feed'
  | .var v => ∃ w us, ts = w :: us ∧ (w.kind = .identifier ∨ ∃ tier, w.kind = .tier tier) ∧
      ∀ {feed feed'}, feed.Whole → Took feed us feed' → feed'.nextKind ≠ .dot →
        variableFrom w feed = .done v feed'
  | .operand kind negate => ∃ w us, ts = w :: us ∧ w.kind ≠ .not ∧
      ∀ {fuel feed feed'}, feed.Whole → Took feed us feed' → feed'.nextKind ≠ .dot →
        4 * ts.length ≤ fuel → operand fuel w feed = .done (kind, negate) feed'
  | .term t => ∀ {fuel feed feed'}, feed.Whole → Took feed ts feed' → feed'.nextKind ≠ .dot →
      4 * ts.length + 1 ≤ fuel → term fuel feed = .done t feed'
  | .operands l => ∀ {fuel feed feed'}, feed.Whole → Took feed ts feed' →
      feed'.nextKind.endsExpr = true → 4 * ts.length + 1 ≤ fuel →
      operands fuel feed = .done l feed'
  | .expr e => ∀ {fuel feed feed'}, feed.Whole → Took feed ts feed' →
      feed'.nextKind.endsExpr = true → 4 * ts.length + 2 ≤ fuel →
      expression fuel feed = .done e feed'
  | .cond c => ∀ {fuel feed feed'}, feed.Whole → Took feed ts feed' →
      feed'.nextKind.endsCond = true → 4 * ts.length + 2 ≤ fuel →
      condition fuel feed = .done c feed'
  | .moreConds l => ∀ {fuel feed feed'}, feed.Whole → Took feed ts feed' →
      feed'.nextKind = .closeParen → 4 * ts.length + 1 ≤ fuel →
      conditionsRest fuel feed = .done l feed'
  | .conds c => ∀ {fuel feed feed'}, feed.Whole → Took feed ts feed' →
      feed'.nextKind = .closeParen → 4 * ts.length + 2 ≤ fuel →
      conditions fuel feed = .done c feed'
  | .moreArguments l => ∀ {fuel feed feed'}, feed.Whole → Took feed ts feed' →
      4 * ts.length ≤ fuel → argumentsRest fuel feed = .done l feed'
  | .arguments l => ∀ {fuel feed feed'}, feed.Whole → Took feed ts feed' →
      4 * ts.length ≤ fuel → arguments fuel feed = .done l feed'
  | .moreParameters l => ∀ {fuel feed feed'}, feed.Whole → Took feed ts feed' →
      4 * ts.length ≤ fuel → parametersRest fuel feed = .done l feed'
  | .parameters l => ∀ {fuel feed feed'}, feed.Whole → Took feed ts feed' →
      4 * ts.length ≤ fuel → parameters fuel feed = .done l feed'
  | .body b => ∃ o us, ts = o :: us ∧ o.kind = .openBrace ∧
      ∀ {fuel feed feed'}, feed.Whole → Took feed us feed' → 4 * us.length ≤ fuel →
        block fuel .braces o.span feed = .done b feed'
  | .ifStmt s span => ∃ w us, ts = w :: us ∧ w.kind = .ifWord ∧
      ∀ {fuel feed feed'}, feed.Whole → Took feed ts feed' →
        feed'.nextKind ≠ .elseWord → 4 * ts.length ≤ fuel →
        ifStmt fuel feed = .done (s, span) feed'
  | .otherwise b => ∀ {fuel feed feed'}, feed.Whole → Took feed ts feed' →
      feed'.nextKind ≠ .elseWord → 4 * ts.length + 1 ≤ fuel →
      elseBranch fuel feed = .done b feed'
  | .item x bare => (∃ w us, ts = w :: us ∧ w.kind.endsItem = true) ∧
      ∀ {fuel feed feed₁ feed' enclosure opening rest}, feed.Whole → Took feed ts feed₁ →
        feed₁.nextKind.endsItem = true → (bare = true → feed₁.nextKind ≠ .fnWord) →
        4 * ts.length ≤ fuel → items fuel enclosure opening feed₁ = .done rest feed' →
        items (fuel + 1) enclosure opening feed = .done (x :: rest) feed'
  | .items l => (∀ t ∈ ts.head?, t.kind.endsItem = true) ∧
      ∀ {fuel feed feed' enclosure opening}, feed.Whole → Ended feed ts feed' enclosure →
        (enclosure = .function → feed'.nextKind = .endWord) →
        4 * ts.length + 1 ≤ fuel → items fuel enclosure opening feed = .done l feed'

section

variable {ts us : List Token} {t : Token}

/-! ### Expressions -/

theorem accepts_tierName {w n : Token} {tier : Tier} (hword : w.kind = .tier tier)
    (hname : n.kind = .identifier) : Accepts [w, n] (.tierVar ⟨tier, n.text⟩) := by
  refine ⟨w, [n], rfl, hword, ?_⟩
  intro feed feed' hw htook hnext
  obtain ⟨feed₁, hn, -, hend⟩ := htook.expectName hname
  obtain rfl := hend.eq_of_nil
  have hskip := eat_other (k := .dot) hw (by rw [htook.nextKind, hname]; nofun)
  simp only [tierVariable, bind_eq_done, pure_eq_done]
  exact ⟨_, _, hskip, _, _, hn, _, _, rejectDot_other (htook.whole hw) hnext, rfl, rfl⟩

theorem accepts_tierDotName {w d n : Token} {tier : Tier} (hword : w.kind = .tier tier)
    (hdot : d.kind = .dot) (hname : n.kind = .identifier) :
    Accepts [w, d, n] (.tierVar ⟨tier, n.text⟩) := by
  refine ⟨w, [d, n], rfl, hword, ?_⟩
  intro feed feed' hw htook hnext
  obtain ⟨feed₁, hd, -, hrest⟩ := htook.eat hdot
  obtain ⟨feed₂, hn, -, hend⟩ := hrest.expectName hname
  obtain rfl := hend.eq_of_nil
  simp only [tierVariable, bind_eq_done, pure_eq_done]
  exact ⟨_, _, hd, _, _, hn, _, _, rejectDot_other (htook.whole hw) hnext, rfl, rfl⟩

theorem accepts_tierVar {v : Var} (h : Accepts ts (.tierVar v)) : Accepts ts (.var v) := by
  obtain ⟨w, us, rfl, hkind, hparse⟩ := h
  refine ⟨w, us, rfl, .inr ⟨_, hkind⟩, ?_⟩
  intro feed feed' hw htook hnext
  unfold variableFrom
  rw [hkind]
  exact hparse hw htook hnext

theorem accepts_name (hkind : t.kind = .identifier) : Accepts [t] (.var ⟨.loc, t.text⟩) := by
  refine ⟨t, [], rfl, .inl hkind, ?_⟩
  intro feed feed' hw htook hnext
  obtain rfl := htook.eq_of_nil
  obtain ⟨next, hpeek, hk⟩ := peek_whole hw
  unfold variableFrom
  rw [hkind]
  simp only [bind_eq_done]
  refine ⟨next, _, hpeek, ?_⟩
  rw [if_neg (hk ▸ hnext), pure_apply]

/-- An operand of one token. -/
theorem accepts_atom {kind : Term.Kind} (hne : t.kind ≠ .not)
    (h : ∀ fuel feed, operand (fuel + 1) t feed = .done (kind, false) feed) :
    Accepts [t] (.operand kind false) := by
  refine ⟨t, [], rfl, hne, ?_⟩
  intro fuel feed feed' hw htook hnext hfuel
  obtain ⟨fuel, rfl⟩ := Nat.exists_eq_add_one.mpr (show 0 < fuel by grind)
  obtain rfl := htook.eq_of_nil
  exact h fuel _

theorem accepts_number {n : Int64} (hkind : t.kind = .number) (hvalue : n.toInt = t.magnitude) :
    Accepts [t] (.operand (.number n) false) := by
  refine accepts_atom (by rw [hkind]; nofun) fun fuel feed => ?_
  rw [operand, hkind]
  simp only [bind_eq_done, pure_eq_done]
  exact ⟨n, _, numeral_done.mpr ⟨rfl, hvalue⟩, rfl, rfl⟩

theorem accepts_negativeNumber {m : Token} {n : Int64} (hminus : m.kind = .minus)
    (hkind : t.kind = .number) (hvalue : n.toInt = -t.magnitude) :
    Accepts [m, t] (.operand (.number n) false) := by
  refine ⟨m, [t], rfl, by rw [hminus]; nofun, ?_⟩
  intro fuel feed feed' hw htook hnext hfuel
  obtain ⟨fuel, rfl⟩ := Nat.exists_eq_add_one.mpr (show 0 < fuel by grind)
  obtain ⟨feed₁, hadv, -, hend⟩ := htook.uncons
  obtain rfl := hend.eq_of_nil
  rw [operand, hminus]
  simp only [bind_eq_done]
  refine ⟨t, _, hadv, ?_⟩
  rw [hkind]
  simp only [bind_eq_done, pure_eq_done]
  exact ⟨n, _, numeral_done.mpr ⟨rfl, hvalue⟩, rfl, rfl⟩

theorem accepts_group {o c : Token} {e : Expr} (hopen : o.kind = .openParen)
    (h : Accepts ts (.expr e)) (hclose : c.kind = .closeParen) :
    Accepts (o :: (ts ++ [c])) (.operand (.group e) false) := by
  refine ⟨o, ts ++ [c], rfl, by rw [hopen]; nofun, ?_⟩
  intro fuel feed feed' hw htook hnext hfuel
  simp only [List.length_cons, List.length_append, List.length_nil] at hfuel
  obtain ⟨fuel, rfl⟩ := Nat.exists_eq_add_one.mpr (show 0 < fuel by omega)
  obtain ⟨feed₁, hts, hc⟩ := htook.split
  obtain ⟨feed₂, hexpect, -, hend⟩ := hc.expect hclose
  obtain rfl := hend.eq_of_nil
  have hinner : expression fuel feed = .done e feed₁ :=
    h hw hts (by rw [hc.nextKind, hclose]; rfl) (by omega)
  rw [operand, hopen]
  simp only [bind_eq_done, pure_eq_done]
  exact ⟨_, _, hinner, _, _, hexpect, rfl, rfl⟩

theorem accepts_var {v : Var} (h : Accepts ts (.var v)) : Accepts ts (.operand (.var v) false) := by
  obtain ⟨w, us, rfl, hkind, hparse⟩ := h
  refine ⟨w, us, rfl, by rcases hkind with hk | ⟨_, hk⟩ <;> rw [hk] <;> nofun, ?_⟩
  intro fuel feed feed' hw htook hnext hfuel
  obtain ⟨fuel, rfl⟩ := Nat.exists_eq_add_one.mpr (show 0 < fuel by grind)
  have hvar := hparse hw htook hnext
  rw [operand]
  rcases hkind with hk | ⟨_, hk⟩ <;> rw [hk] <;> simp only [bind_eq_done, pure_eq_done] <;>
    exact ⟨_, _, hvar, rfl, rfl⟩

theorem accepts_negativeVar {m : Token} {v : Var} (hminus : m.kind = .minus)
    (h : Accepts ts (.var v)) : Accepts (m :: ts) (.operand (.var v) true) := by
  obtain ⟨w, us, rfl, hkind, hparse⟩ := h
  refine ⟨m, w :: us, rfl, by rw [hminus]; nofun, ?_⟩
  intro fuel feed feed' hw htook hnext hfuel
  obtain ⟨fuel, rfl⟩ := Nat.exists_eq_add_one.mpr (show 0 < fuel by grind)
  obtain ⟨feed₁, hadv, hword, hus⟩ := htook.uncons
  have hvar := hparse (hword.whole hw) hus hnext
  rw [operand, hminus]
  simp only [bind_eq_done]
  refine ⟨w, _, hadv, ?_⟩
  rcases hkind with hk | ⟨_, hk⟩ <;> rw [hk] <;> simp only [bind_eq_done, pure_eq_done] <;>
    exact ⟨_, _, hvar, rfl, rfl⟩

theorem accepts_term {kind : Term.Kind} {negate : Bool} (h : Accepts ts (.operand kind negate)) :
    Accepts ts (.term ⟨kind, false, negate, (firstSpanOf ts).through ts⟩) := by
  obtain ⟨w, us, rfl, hne, hparse⟩ := h
  intro fuel feed feed' hw htook hnext hfuel
  obtain ⟨fuel, rfl⟩ := Nat.exists_eq_add_one.mpr (show 0 < fuel by omega)
  obtain ⟨feed₁, hadv, hword, hus⟩ := htook.uncons
  have hoperand : operand fuel w feed₁ = .done (kind, negate) feed' :=
    hparse (hword.whole hw) hus hnext (by omega)
  simp only [term, bind_eq_done]
  refine ⟨w, _, hadv, ?_⟩
  rw [if_neg hne]
  simp only [bind_eq_done, lastSpan_eq_done, pure_eq_done]
  refine ⟨_, _, hoperand, _, _, ⟨rfl, rfl⟩, ?_, rfl⟩
  rw [htook.through (by simp)]
  rfl

theorem accepts_invertedTerm {n : Token} {kind : Term.Kind} {negate : Bool} (hnot : n.kind = .not)
    (h : Accepts ts (.operand kind negate)) :
    Accepts (n :: ts) (.term ⟨kind, true, negate, n.span.through ts⟩) := by
  obtain ⟨w, us, rfl, -, hparse⟩ := h
  intro fuel feed feed' hw htook hnext hfuel
  rw [List.length_cons] at hfuel
  obtain ⟨fuel, rfl⟩ := Nat.exists_eq_add_one.mpr (show 0 < fuel by omega)
  obtain ⟨feed₁, hadv, hn, hts⟩ := htook.uncons
  obtain ⟨feed₂, hadv', hword, hus⟩ := hts.uncons
  have hoperand : operand fuel w feed₂ = .done (kind, negate) feed' :=
    hparse (hword.whole (hn.whole hw)) hus hnext (by omega)
  simp only [term, bind_eq_done]
  refine ⟨n, _, hadv, ?_⟩
  rw [if_pos hnot]
  simp only [bind_eq_done, lastSpan_eq_done, pure_eq_done]
  refine ⟨_, _, hadv', _, _, hoperand, _, _, ⟨rfl, rfl⟩, ?_, rfl⟩
  rw [hts.through (by simp)]

theorem accepts_noOperands : Accepts [] (.operands []) := by
  intro fuel feed feed' hw htook hnext hfuel
  obtain ⟨fuel, rfl⟩ := Nat.exists_eq_add_one.mpr (show 0 < fuel by omega)
  obtain rfl := htook.eq_of_nil
  obtain ⟨t, hpeek, hk⟩ := peek_whole hw
  rw [← hk] at hnext
  simp only [operands, bind_eq_done]
  refine ⟨t, _, hpeek, ?_⟩
  rw [if_neg (by rintro hnot; rw [hnot] at hnext; cases hnext), Kind.arithOp?_of_endsExpr hnext]
  rfl

/-- What follows an operand is no dot: the next operand starts with an operator. -/
theorem nextKind_ne_dot_of_operands {l : List (ArithOp × Term)} {feed feed' : Feed}
    (h : Spells ts (.operands l)) (htook : Took feed ts feed')
    (hnext : feed'.nextKind.endsExpr = true) : feed.nextKind ≠ .dot := by
  generalize hp : Phrase.operands l = p at h
  cases h with
  | noOperands =>
    rw [← htook.eq_of_nil]
    intro hdot
    rw [hdot] at hnext
    cases hnext
  | operand ho =>
    rw [htook.nextKind]
    intro hdot
    rw [hdot] at ho
    cases ho
  | invertedOperand hn =>
    rw [htook.nextKind, hn]
    nofun
  | _ => cases hp

theorem accepts_operand {o : Token} {op : ArithOp} {x : Term} {rest : List (ArithOp × Term)}
    (hop : o.kind.arithOp? = some op) (hterm : Accepts ts (.term x))
    (hspell : Spells us (.operands rest)) (hrest : Accepts us (.operands rest)) :
    Accepts (o :: (ts ++ us)) (.operands ((op, x) :: rest)) := by
  intro fuel feed feed' hw htook hnext hfuel
  simp only [List.length_cons, List.length_append] at hfuel
  obtain ⟨fuel, rfl⟩ := Nat.exists_eq_add_one.mpr (show 0 < fuel by omega)
  obtain ⟨feed₁, hadv, ho, htail⟩ := htook.uncons
  obtain ⟨feed₂, hts, hus⟩ := htail.split
  have hw₁ := ho.whole hw
  have hx : term fuel feed₁ = .done x feed₂ :=
    hterm hw₁ hts (nextKind_ne_dot_of_operands hspell hus hnext) (by omega)
  have hr : operands fuel feed₂ = .done rest feed' := hrest (hts.whole hw₁) hus hnext (by omega)
  simp only [operands, bind_eq_done]
  refine ⟨o, _, htook.peek, ?_⟩
  rw [if_neg (by rintro hnot; rw [hnot] at hop; cases hop), hop]
  simp only [bind_eq_done, pure_eq_done]
  exact ⟨_, _, hadv, _, _, hx, _, _, hr, rfl, rfl⟩

theorem accepts_invertedOperand {n o : Token} {op : ArithOp} {x : Term}
    {rest : List (ArithOp × Term)} (hnot : n.kind = .not) (hop : o.kind.arithOp? = some op)
    (hterm : Accepts ts (.term x)) (hspell : Spells us (.operands rest))
    (hrest : Accepts us (.operands rest)) :
    Accepts (n :: o :: (ts ++ us)) (.operands ((op, { x with invert := !x.invert }) :: rest)) := by
  intro fuel feed feed' hw htook hnext hfuel
  simp only [List.length_cons, List.length_append] at hfuel
  obtain ⟨fuel, rfl⟩ := Nat.exists_eq_add_one.mpr (show 0 < fuel by omega)
  obtain ⟨feed₀, hadv, hn, htook'⟩ := htook.uncons
  obtain ⟨feed₁, hadv', ho, htail⟩ := htook'.uncons
  obtain ⟨feed₂, hts, hus⟩ := htail.split
  have hw₁ := ho.whole (hn.whole hw)
  have hx : term fuel feed₁ = .done x feed₂ :=
    hterm hw₁ hts (nextKind_ne_dot_of_operands hspell hus hnext) (by omega)
  have hr : operands fuel feed₂ = .done rest feed' := hrest (hts.whole hw₁) hus hnext (by omega)
  simp only [operands, bind_eq_done]
  refine ⟨n, _, htook.peek, ?_⟩
  rw [if_pos hnot]
  simp only [bind_eq_done]
  refine ⟨n, _, hadv, o, _, hadv', ?_⟩
  rw [hop]
  simp only [bind_eq_done, pure_eq_done]
  exact ⟨_, _, hx, _, _, hr, rfl, rfl⟩

theorem accepts_expr {first : Term} {rest : List (ArithOp × Term)} (hts : ts ≠ [])
    (hterm : Accepts ts (.term first)) (hspell : Spells us (.operands rest))
    (hrest : Accepts us (.operands rest)) :
    Accepts (ts ++ us) (.expr
      ⟨first :: rest.map Prod.snd, rest.map Prod.fst, first.span.through (ts ++ us)⟩) := by
  intro fuel feed feed' hw htook hnext hfuel
  rw [List.length_append] at hfuel
  obtain ⟨fuel, rfl⟩ := Nat.exists_eq_add_one.mpr (show 0 < fuel by omega)
  obtain ⟨feed₁, hleft, hright⟩ := htook.split
  have hx : term fuel feed = .done first feed₁ :=
    hterm hw hleft (nextKind_ne_dot_of_operands hspell hright hnext) (by omega)
  have hr : operands fuel feed₁ = .done rest feed' :=
    hrest (hleft.whole hw) hright hnext (by omega)
  simp only [expression, bind_eq_done, lastSpan_eq_done, pure_eq_done]
  refine ⟨_, _, hx, _, _, hr, _, _, ⟨rfl, rfl⟩, ?_, rfl⟩
  rw [htook.through (by simp [hts])]

/-! ### Conditions -/

theorem accepts_test {e : Expr} (hts : ts ≠ []) (h : Accepts ts (.expr e)) :
    Accepts ts (.cond ⟨e, none, e.span.through ts⟩) := by
  intro fuel feed feed' hw htook hnext hfuel
  have hnext' := Bool.and_eq_true_iff.mp hnext
  obtain ⟨t, hpeek, hk⟩ := peek_whole (htook.whole hw)
  rw [← hk] at hnext'
  simp only [condition, bind_eq_done]
  refine ⟨e, _, h hw htook (hk ▸ hnext'.1) hfuel, t, _, hpeek, ?_⟩
  rw [Option.isNone_iff_eq_none.mp hnext'.2]
  simp only [bind_eq_done, lastSpan_eq_done, pure_eq_done]
  refine ⟨_, _, ⟨rfl, rfl⟩, ?_, rfl⟩
  rw [htook.through hts]

theorem accepts_comparison {left right : Expr} {o : Token} {op : RelOp} (hus : us ≠ [])
    (hleft : Accepts ts (.expr left)) (hop : o.kind.relOp? = some op)
    (hright : Accepts us (.expr right)) :
    Accepts (ts ++ o :: us) (.cond ⟨left, some (op, right), left.span.through us⟩) := by
  intro fuel feed feed' hw htook hnext hfuel
  simp only [List.length_append, List.length_cons] at hfuel
  obtain ⟨feed₁, hts, htail⟩ := htook.split
  obtain ⟨feed₂, hadv, ho, hus'⟩ := htail.uncons
  have hw₁ := hts.whole hw
  have hl : expression fuel feed = .done left feed₁ :=
    hleft hw hts (by rw [htail.nextKind]; exact Kind.endsExpr_of_relOp? hop) (by omega)
  have hr : expression fuel feed₂ = .done right feed' :=
    hright (ho.whole hw₁) hus' (Bool.and_eq_true_iff.mp hnext).1 (by omega)
  simp only [condition, bind_eq_done]
  refine ⟨left, _, hl, o, _, htail.peek, ?_⟩
  rw [hop]
  simp only [bind_eq_done, lastSpan_eq_done, pure_eq_done]
  refine ⟨_, _, hadv, _, _, hr, _, _, ⟨rfl, rfl⟩, ?_, rfl⟩
  rw [hus'.through hus]

theorem accepts_noConds : Accepts [] (.moreConds []) := by
  intro fuel feed feed' hw htook hnext hfuel
  obtain ⟨fuel, rfl⟩ := Nat.exists_eq_add_one.mpr (show 0 < fuel by omega)
  obtain rfl := htook.eq_of_nil
  obtain ⟨t, hpeek, hk⟩ := peek_whole hw
  simp only [conditionsRest, bind_eq_done]
  refine ⟨t, _, hpeek, ?_⟩
  rw [hk, hnext]
  rfl

/-- What follows a condition does not continue it: the next condition starts with an operator. -/
theorem endsCond_of_moreConds {l : List (BoolOp × Condition)} {feed feed' : Feed}
    (h : Spells ts (.moreConds l)) (htook : Took feed ts feed')
    (hnext : feed'.nextKind = .closeParen) : feed.nextKind.endsCond = true := by
  generalize hp : Phrase.moreConds l = p at h
  cases h with
  | noConds => rw [← htook.eq_of_nil, hnext]; rfl
  | nextCond ho => rw [htook.nextKind]; exact Kind.endsCond_of_boolOp? ho
  | _ => cases hp

theorem accepts_nextCond {o : Token} {op : BoolOp} {x : Condition}
    {rest : List (BoolOp × Condition)}
    (hop : o.kind.boolOp? = some op) (hcond : Accepts ts (.cond x))
    (hspell : Spells us (.moreConds rest)) (hrest : Accepts us (.moreConds rest)) :
    Accepts (o :: (ts ++ us)) (.moreConds ((op, x) :: rest)) := by
  intro fuel feed feed' hw htook hnext hfuel
  simp only [List.length_cons, List.length_append] at hfuel
  obtain ⟨fuel, rfl⟩ := Nat.exists_eq_add_one.mpr (show 0 < fuel by omega)
  obtain ⟨feed₁, hadv, ho, htail⟩ := htook.uncons
  obtain ⟨feed₂, hts, hus⟩ := htail.split
  have hw₁ := ho.whole hw
  have hx : condition fuel feed₁ = .done x feed₂ :=
    hcond hw₁ hts (endsCond_of_moreConds hspell hus hnext) (by omega)
  have hr : conditionsRest fuel feed₂ = .done rest feed' :=
    hrest (hts.whole hw₁) hus hnext (by omega)
  simp only [conditionsRest, bind_eq_done]
  refine ⟨o, _, htook.peek, ?_⟩
  rw [hop]
  simp only [bind_eq_done, pure_eq_done]
  exact ⟨_, _, hadv, _, _, hx, _, _, hr, rfl, rfl⟩

theorem accepts_conds {first : Condition} {rest : List (BoolOp × Condition)} (hts : ts ≠ [])
    (hcond : Accepts ts (.cond first)) (hspell : Spells us (.moreConds rest))
    (hrest : Accepts us (.moreConds rest)) :
    Accepts (ts ++ us) (.conds
      ⟨first :: rest.map Prod.snd, rest.map Prod.fst, first.span.through (ts ++ us)⟩) := by
  intro fuel feed feed' hw htook hnext hfuel
  rw [List.length_append] at hfuel
  obtain ⟨feed₁, hleft, hright⟩ := htook.split
  have hx : condition fuel feed = .done first feed₁ :=
    hcond hw hleft (endsCond_of_moreConds hspell hright hnext) (by omega)
  have hr : conditionsRest fuel feed₁ = .done rest feed' :=
    hrest (hleft.whole hw) hright hnext (by omega)
  simp only [conditions, bind_eq_done, lastSpan_eq_done, pure_eq_done]
  refine ⟨_, _, hx, _, _, hr, _, _, ⟨rfl, rfl⟩, ?_, rfl⟩
  rw [htook.through (by simp [hts])]

/-! ### Arguments and parameters -/

theorem accepts_lastArgument {c : Token} {e : Expr} (h : Accepts ts (.expr e))
    (hc : c.kind = .closeParen) : Accepts (ts ++ [c]) (.moreArguments [e]) := by
  intro fuel feed feed' hw htook hfuel
  simp only [List.length_append, List.length_cons, List.length_nil] at hfuel
  obtain ⟨fuel, rfl⟩ := Nat.exists_eq_add_one.mpr (show 0 < fuel by omega)
  obtain ⟨feed₁, hts, htail⟩ := htook.split
  obtain ⟨feed₂, hadv, -, hend⟩ := htail.uncons
  obtain rfl := hend.eq_of_nil
  have he : expression fuel feed = .done e feed₁ :=
    h hw hts (by rw [htail.nextKind, hc]; rfl) (by omega)
  simp only [argumentsRest, bind_eq_done]
  refine ⟨_, _, he, c, _, hadv, ?_⟩
  rw [hc]
  rfl

theorem accepts_nextArgument {c : Token} {e : Expr} {l : List Expr} (h : Accepts ts (.expr e))
    (hc : c.kind = .comma) (hrest : Accepts us (.moreArguments l)) :
    Accepts (ts ++ c :: us) (.moreArguments (e :: l)) := by
  intro fuel feed feed' hw htook hfuel
  simp only [List.length_append, List.length_cons] at hfuel
  obtain ⟨fuel, rfl⟩ := Nat.exists_eq_add_one.mpr (show 0 < fuel by omega)
  obtain ⟨feed₁, hts, htail⟩ := htook.split
  obtain ⟨feed₂, hadv, hcomma, hus⟩ := htail.uncons
  have he : expression fuel feed = .done e feed₁ :=
    h hw hts (by rw [htail.nextKind, hc]; rfl) (by omega)
  have hr : argumentsRest fuel feed₂ = .done l feed' :=
    hrest (hcomma.whole (hts.whole hw)) hus (by omega)
  simp only [argumentsRest, bind_eq_done]
  refine ⟨_, _, he, c, _, hadv, ?_⟩
  rw [hc]
  simp only [bind_eq_done, pure_eq_done]
  exact ⟨_, _, hr, rfl, rfl⟩

theorem accepts_noArguments {c : Token} (hc : c.kind = .closeParen) :
    Accepts [c] (.arguments []) := by
  intro fuel feed feed' hw htook hfuel
  obtain ⟨feed₁, heat, -, hend⟩ := htook.eat hc
  obtain rfl := hend.eq_of_nil
  simp only [arguments, bind_eq_done]
  exact ⟨true, _, heat, rfl⟩

theorem accepts_someArguments {l : List Expr} (hspell : Spells ts (.moreArguments l))
    (h : Accepts ts (.moreArguments l)) : Accepts ts (.arguments l) := by
  intro fuel feed feed' hw htook hfuel
  obtain ⟨t, us, rfl, ht⟩ := hspell.head_ne_closeParen rfl
  simp only [arguments, bind_eq_done]
  exact ⟨false, _, eat_other hw (by rwa [htook.nextKind]), h hw htook hfuel⟩

/-- The mark of a parameter that is copied back, or no mark. -/
def IsMark (mark : List Token) (out : Bool) : Prop :=
  (mark = [] ∧ out = false) ∨ ∃ s, s.kind = .star ∧ mark = [s] ∧ out = true

theorem IsMark.eat {mark : List Token} {out : Bool} {n : Token} {feed feed' : Feed}
    (hmark : IsMark mark out) (hn : n.kind = .identifier) (hw : feed.Whole)
    (htook : Took feed (mark ++ n :: ts) feed') :
    ∃ feed₁, Parse.eat .star feed = .done out feed₁ ∧ Took feed mark feed₁ ∧
      Took feed₁ (n :: ts) feed' := by
  rcases hmark with ⟨rfl, rfl⟩ | ⟨s, hs, rfl, rfl⟩
  · exact ⟨feed, eat_other hw (by rw [htook.nextKind, hn]; nofun), .refl _, htook⟩
  · exact htook.eat hs

theorem accepts_lastParameter {mark : List Token} {out : Bool} {n c : Token}
    (hmark : IsMark mark out) (hn : n.kind = .identifier) (hc : c.kind = .closeParen) :
    Accepts (mark ++ [n, c]) (.moreParameters [(out, n.text)]) := by
  intro fuel feed feed' hw htook hfuel
  simp only [List.length_append, List.length_cons, List.length_nil] at hfuel
  obtain ⟨fuel, rfl⟩ := Nat.exists_eq_add_one.mpr (show 0 < fuel by omega)
  obtain ⟨feed₁, heat, -, htail⟩ := hmark.eat hn hw htook
  obtain ⟨feed₂, hname, -, htail'⟩ := htail.expectName hn
  obtain ⟨feed₃, hadv, -, hend⟩ := htail'.uncons
  obtain rfl := hend.eq_of_nil
  simp only [parametersRest, bind_eq_done]
  refine ⟨_, _, heat, _, _, hname, c, _, hadv, ?_⟩
  rw [hc]
  rfl

theorem accepts_nextParameter {mark : List Token} {out : Bool} {n c : Token}
    {l : List (Bool × String)} (hmark : IsMark mark out) (hn : n.kind = .identifier)
    (hc : c.kind = .comma) (hrest : Accepts ts (.moreParameters l)) :
    Accepts (mark ++ n :: c :: ts) (.moreParameters ((out, n.text) :: l)) := by
  intro fuel feed feed' hw htook hfuel
  simp only [List.length_append, List.length_cons] at hfuel
  obtain ⟨fuel, rfl⟩ := Nat.exists_eq_add_one.mpr (show 0 < fuel by omega)
  obtain ⟨feed₁, heat, hm, htail⟩ := hmark.eat hn hw htook
  obtain ⟨feed₂, hname, hn', htail'⟩ := htail.expectName hn
  obtain ⟨feed₃, hadv, hc', hts⟩ := htail'.uncons
  have hr : parametersRest fuel feed₃ = .done l feed' :=
    hrest (hc'.whole (hn'.whole (hm.whole hw))) hts (by omega)
  simp only [parametersRest, bind_eq_done]
  refine ⟨_, _, heat, _, _, hname, c, _, hadv, ?_⟩
  rw [hc]
  simp only [bind_eq_done, pure_eq_done]
  exact ⟨_, _, hr, rfl, rfl⟩

theorem accepts_noParameters {c : Token} (hc : c.kind = .closeParen) :
    Accepts [c] (.parameters []) := by
  intro fuel feed feed' hw htook hfuel
  obtain ⟨feed₁, heat, -, hend⟩ := htook.eat hc
  obtain rfl := hend.eq_of_nil
  simp only [parameters, bind_eq_done]
  exact ⟨true, _, heat, rfl⟩

theorem accepts_someParameters {l : List (Bool × String)} (hspell : Spells ts (.moreParameters l))
    (h : Accepts ts (.moreParameters l)) : Accepts ts (.parameters l) := by
  intro fuel feed feed' hw htook hfuel
  obtain ⟨t, us, rfl, ht⟩ := hspell.head_ne_closeParen rfl
  simp only [parameters, bind_eq_done]
  exact ⟨false, _, eat_other hw (by rwa [htook.nextKind]), h hw htook hfuel⟩

/-! ### Statements -/

theorem accepts_assign {target : Var} {q : Token} {value : Expr}
    (hvar : Accepts ts (.tierVar target))
    (hq : q.kind = .eq) (hvalue : Accepts us (.expr value)) :
    Accepts (ts ++ q :: us)
      (.item (.stmt (.assign target value ((firstSpanOf ts).merge value.span))) false) := by
  obtain ⟨w, vs, rfl, hk, hparse⟩ := hvar
  refine ⟨⟨w, _, rfl, by rw [hk]; rfl⟩, ?_⟩
  intro fuel feed feed₁ feed' enclosure opening rest hw htook hnext _ hfuel hrest
  simp only [List.length_append, List.length_cons] at hfuel
  obtain ⟨feed₂, hadv, hword, htail⟩ := htook.uncons
  obtain ⟨feed₃, hvs, htail'⟩ := htail.split
  obtain ⟨feed₄, hexpect, hq', hus⟩ := htail'.expect hq
  have hw₂ := hword.whole hw
  have hv := hparse hw₂ hvs (by rw [htail'.nextKind, hq]; nofun)
  have he : expression fuel feed₄ = .done value feed₁ :=
    hvalue (hq'.whole (hvs.whole hw₂)) hus (Kind.endsExpr_of_endsItem hnext) (by omega)
  have hs : assignment fuel feed =
      .done (.assign target value (w.span.merge value.span)) feed₁ := by
    simp only [assignment, bind_eq_done]
    refine ⟨w, _, hadv, ?_⟩
    rw [hk]
    simp only [bind_eq_done, pure_eq_done]
    exact ⟨_, _, hv, _, _, hexpect, _, _, he, rfl, rfl⟩
  simp only [items, bind_eq_done]
  refine ⟨w, _, htook.peek, ?_⟩
  rw [hk]
  simp only [bind_eq_done, pure_eq_done]
  exact ⟨_, _, hs, _, _, hrest, rfl, rfl⟩

theorem accepts_call {n o : Token} {args : List Expr} (hn : n.kind = .identifier)
    (ho : o.kind = .openParen) (hne : ts ≠ []) (hargs : Accepts ts (.arguments args)) :
    Accepts (n :: o :: ts) (.item (.stmt (.call ⟨n.text, args, n.span.through ts⟩)) false) := by
  refine ⟨⟨n, _, rfl, by rw [hn]; rfl⟩, ?_⟩
  intro fuel feed feed₁ feed' enclosure opening rest hw htook hnext _ hfuel hrest
  simp only [List.length_cons] at hfuel
  obtain ⟨feed₂, hname, hn', htail⟩ := htook.expectName hn
  obtain ⟨feed₃, hadv, ho', hts⟩ := htail.uncons
  have ha : arguments fuel feed₃ = .done args feed₁ :=
    hargs (ho'.whole (hn'.whole hw)) hts (by omega)
  have hs : callStmt fuel feed = .done (.call ⟨n.text, args, n.span.through ts⟩) feed₁ := by
    simp only [callStmt, bind_eq_done]
    refine ⟨n, _, hname, o, _, hadv, ?_⟩
    rw [ho]
    simp only [bind_eq_done, lastSpan_eq_done, pure_eq_done]
    refine ⟨_, _, ha, _, _, ⟨rfl, rfl⟩, ?_, rfl⟩
    rw [hts.through hne]
  simp only [items, bind_eq_done]
  refine ⟨n, _, htook.peek, ?_⟩
  rw [hn]
  simp only [bind_eq_done, pure_eq_done]
  exact ⟨_, _, hs, _, _, hrest, rfl, rfl⟩

theorem moduleCallTail_of_took {n o : Token} {args : List Expr} {fuel : Nat} {feed feed' : Feed}
    {module : String} {start : Span} (hn : n.kind = .identifier) (ho : o.kind = .openParen)
    (hne : ts ≠ []) (hargs : Accepts ts (.arguments args)) (hw : feed.Whole)
    (htook : Took feed (n :: o :: ts) feed') (hfuel : 4 * ts.length ≤ fuel) :
    moduleCallTail fuel module start feed =
      .done (.moduleCall module ⟨n.text, args, start.through ts⟩) feed' := by
  obtain ⟨feed₁, hname, hn', htail⟩ := htook.expectName hn
  obtain ⟨feed₂, hexpect, ho', hts⟩ := htail.expect ho
  have hw₁ := hn'.whole hw
  have hdot : rejectDot (module ++ "." ++ n.text) feed₁ = .done () feed₁ :=
    rejectDot_other hw₁ (by rw [htail.nextKind, ho]; nofun)
  have ha : arguments fuel feed₂ = .done args feed' := hargs (ho'.whole hw₁) hts hfuel
  simp only [moduleCallTail, bind_eq_done, lastSpan_eq_done, pure_eq_done]
  refine ⟨_, _, hname, _, _, hdot, _, _, hexpect, _, _, ha, _, _, ⟨rfl, rfl⟩, ?_, rfl⟩
  rw [hts.through hne]

theorem accepts_moduleCall {m d n o : Token} {args : List Expr} (hm : m.kind = .identifier)
    (hd : d.kind = .dot) (hn : n.kind = .identifier) (ho : o.kind = .openParen) (hne : ts ≠ [])
    (hargs : Accepts ts (.arguments args)) :
    Accepts (m :: d :: n :: o :: ts)
      (.item (.stmt (.moduleCall m.text ⟨n.text, args, m.span.through ts⟩)) false) := by
  refine ⟨⟨m, _, rfl, by rw [hm]; rfl⟩, ?_⟩
  intro fuel feed feed₁ feed' enclosure opening rest hw htook hnext _ hfuel hrest
  simp only [List.length_cons] at hfuel
  obtain ⟨feed₂, hname, hm', htail⟩ := htook.expectName hm
  obtain ⟨feed₃, hadv, hd', hts⟩ := htail.uncons
  have hs : callStmt fuel feed =
      .done (.moduleCall m.text ⟨n.text, args, m.span.through ts⟩) feed₁ := by
    simp only [callStmt, bind_eq_done]
    refine ⟨m, _, hname, d, _, hadv, ?_⟩
    rw [hd]
    exact moduleCallTail_of_took hn ho hne hargs (hd'.whole (hm'.whole hw)) hts (by omega)
  simp only [items, bind_eq_done]
  refine ⟨m, _, htook.peek, ?_⟩
  rw [hm]
  simp only [bind_eq_done, pure_eq_done]
  exact ⟨_, _, hs, _, _, hrest, rfl, rfl⟩

/-- An item that starts with `fn` is accepted if what follows `fn` is. -/
theorem items_fn {f : Token} {x : Item} {fuel : Nat} {feed feed₀ feed₁ feed' : Feed}
    {enclosure : Enclosure} {opening : Span} {rest : List Item} (hf : f.kind = .fnWord)
    (hpeek : peek feed = .done f feed) (hadv : advance feed = .done f feed₀)
    (hx : fnItem fuel f.span feed₀ = .done x feed₁)
    (hrest : items fuel enclosure opening feed₁ = .done rest feed') :
    items (fuel + 1) enclosure opening feed = .done (x :: rest) feed' := by
  simp only [items, bind_eq_done]
  refine ⟨f, _, hpeek, ?_⟩
  rw [hf]
  simp only [bind_eq_done, pure_eq_done]
  exact ⟨_, _, hadv, _, _, hx, _, _, hrest, rfl, rfl⟩

theorem accepts_fnModuleCall {f m d n o : Token} {args : List Expr} (hf : f.kind = .fnWord)
    (hm : m.kind = .identifier) (hd : d.kind = .dot) (hn : n.kind = .identifier)
    (ho : o.kind = .openParen) (hne : ts ≠ []) (hargs : Accepts ts (.arguments args)) :
    Accepts (f :: m :: d :: n :: o :: ts)
      (.item (.stmt (.moduleCall m.text ⟨n.text, args, f.span.through ts⟩)) false) := by
  refine ⟨⟨f, _, rfl, by rw [hf]; rfl⟩, ?_⟩
  intro fuel feed feed₁ feed' enclosure opening rest hw htook hnext _ hfuel hrest
  simp only [List.length_cons] at hfuel
  obtain ⟨fuel, rfl⟩ := Nat.exists_eq_add_one.mpr (show 0 < fuel by omega)
  obtain ⟨feed₂, hadv, hf', htail⟩ := htook.uncons
  obtain ⟨feed₃, hname, hm', htail'⟩ := htail.expectName hm
  obtain ⟨feed₄, hadv', hd', hts⟩ := htail'.uncons
  have hw₃ := hd'.whole (hm'.whole (hf'.whole hw))
  have hs : moduleCallTail fuel m.text f.span feed₄ = .done _ feed₁ :=
    moduleCallTail_of_took hn ho hne hargs hw₃ hts (by omega)
  refine items_fn hf htook.peek hadv ?_ hrest
  simp only [fnItem, bind_eq_done]
  refine ⟨m, _, hname, d, _, hadv', ?_⟩
  rw [hd]
  simp only [bind_eq_done, pure_eq_done]
  exact ⟨_, _, hs, rfl, rfl⟩

/-- A statement of one word. -/
theorem accepts_word {s : Stmt} (hends : t.kind.endsItem = true)
    (h : ∀ {fuel feed feed₁ feed' enclosure opening rest}, peek feed = .done t feed →
      advance feed = .done t feed₁ → items fuel enclosure opening feed₁ = .done rest feed' →
      items (fuel + 1) enclosure opening feed = .done (.stmt s :: rest) feed') :
    Accepts [t] (.item (.stmt s) false) := by
  refine ⟨⟨t, [], rfl, hends⟩, ?_⟩
  intro fuel feed feed₁ feed' enclosure opening rest hw htook hnext _ hfuel hrest
  obtain ⟨feed₂, hadv, -, hend⟩ := htook.uncons
  obtain rfl := hend.eq_of_nil
  exact h htook.peek hadv hrest

theorem accepts_breakLoop (hk : t.kind = .breakWord) :
    Accepts [t] (.item (.stmt (.breakLoop t.span)) false) := by
  refine accepts_word (by rw [hk]; rfl) fun hpeek hadv hrest => ?_
  simp only [items, bind_eq_done]
  refine ⟨t, _, hpeek, ?_⟩
  rw [hk]
  simp only [bind_eq_done, pure_eq_done]
  exact ⟨_, _, hadv, _, _, hrest, rfl, rfl⟩

theorem accepts_endCode (hk : t.kind = .endcodeWord) :
    Accepts [t] (.item (.stmt (.endCode t.span)) false) := by
  refine accepts_word (by rw [hk]; rfl) fun hpeek hadv hrest => ?_
  simp only [items, bind_eq_done]
  refine ⟨t, _, hpeek, ?_⟩
  rw [hk]
  simp only [bind_eq_done, pure_eq_done]
  exact ⟨_, _, hadv, _, _, hrest, rfl, rfl⟩

theorem accepts_block {b : Block} (h : Accepts ts (.body b)) :
    Accepts ts (.item (.stmt (.block b)) false) := by
  obtain ⟨o, us, rfl, hk, hparse⟩ := h
  refine ⟨⟨o, us, rfl, by rw [hk]; rfl⟩, ?_⟩
  intro fuel feed feed₁ feed' enclosure opening rest hw htook hnext _ hfuel hrest
  rw [List.length_cons] at hfuel
  obtain ⟨feed₂, hadv, ho, hus⟩ := htook.uncons
  have hb : block fuel .braces o.span feed₂ = .done b feed₁ :=
    hparse (ho.whole hw) hus (by omega)
  simp only [items, bind_eq_done]
  refine ⟨o, _, htook.peek, ?_⟩
  rw [hk]
  simp only [bind_eq_done, pure_eq_done]
  exact ⟨_, _, hadv, _, _, hb, _, _, hrest, rfl, rfl⟩

theorem accepts_ifItem {s : Stmt} {span : Span} (h : Accepts ts (.ifStmt s span)) :
    Accepts ts (.item (.stmt s) false) := by
  obtain ⟨w, us, rfl, hk, hparse⟩ := h
  refine ⟨⟨w, us, rfl, by rw [hk]; rfl⟩, ?_⟩
  intro fuel feed feed₁ feed' enclosure opening rest hw htook hnext _ hfuel hrest
  have hs : ifStmt fuel feed = .done (s, span) feed₁ :=
    hparse hw htook (by rintro helse; rw [helse] at hnext; cases hnext) hfuel
  simp only [items, bind_eq_done]
  refine ⟨w, _, htook.peek, ?_⟩
  rw [hk]
  simp only [bind_eq_done, pure_eq_done]
  exact ⟨_, _, hs, _, _, hrest, rfl, rfl⟩

theorem bracedBlock_of_took {b : Block} {fuel : Nat} {feed feed' : Feed} (h : Accepts ts (.body b))
    (hw : feed.Whole) (htook : Took feed ts feed') (hfuel : 4 * ts.length ≤ fuel) :
    bracedBlock fuel feed = .done b feed' := by
  obtain ⟨o, us, rfl, hk, hparse⟩ := h
  rw [List.length_cons] at hfuel
  obtain ⟨fuel, rfl⟩ := Nat.exists_eq_add_one.mpr (show 0 < fuel by omega)
  obtain ⟨feed₁, hexpect, ho, hus⟩ := htook.expect hk
  simp only [bracedBlock, bind_eq_done]
  exact ⟨o, _, hexpect, hparse (ho.whole hw) hus (by omega)⟩

theorem accepts_whileLoop {w o p : Token} {x : Conditions} {body : Block} (hk : w.kind = .whileWord)
    (ho : o.kind = .openParen) (hx : Accepts ts (.conds x)) (hp : p.kind = .closeParen)
    (hne : us ≠ []) (hbody : Accepts us (.body body)) :
    Accepts (w :: o :: (ts ++ p :: us))
      (.item (.stmt (.whileLoop x body (w.span.through us))) false) := by
  refine ⟨⟨w, _, rfl, by rw [hk]; rfl⟩, ?_⟩
  intro fuel feed feed₁ feed' enclosure opening rest hw htook hnext _ hfuel hrest
  simp only [List.length_cons, List.length_append] at hfuel
  obtain ⟨fuel, rfl⟩ := Nat.exists_eq_add_one.mpr (show 0 < fuel by omega)
  obtain ⟨feed₂, hword, hword', htail⟩ := htook.expect hk
  obtain ⟨feed₃, hopen, ho', htail⟩ := htail.expect ho
  obtain ⟨feed₄, hts, htail⟩ := htail.split
  obtain ⟨feed₅, hclose, hp', hus⟩ := htail.expect hp
  have hw₃ := ho'.whole (hword'.whole hw)
  have hc : conditions fuel feed₃ = .done x feed₄ :=
    hx hw₃ hts (by rw [htail.nextKind, hp]) (by omega)
  have hb : bracedBlock fuel feed₅ = .done body feed₁ :=
    bracedBlock_of_took hbody (hp'.whole (hts.whole hw₃)) hus (by omega)
  have hs : whileStmt (fuel + 1) feed = .done (.whileLoop x body (w.span.through us)) feed₁ := by
    simp only [whileStmt, bind_eq_done, lastSpan_eq_done, pure_eq_done]
    refine ⟨_, _, hword, _, _, hopen, _, _, hc, _, _, hclose, _, _, hb, _, _, ⟨rfl, rfl⟩, ?_, rfl⟩
    rw [hus.through hne]
  rw [items]
  simp only [bind_eq_done]
  refine ⟨w, _, htook.peek, ?_⟩
  rw [hk]
  simp only [bind_eq_done, pure_eq_done]
  exact ⟨_, _, hs, _, _, hrest, rfl, rfl⟩

theorem accepts_forLoop {w o m p : Token} {ds : List Token} {dest src : Term} {body : Block}
    (hk : w.kind = .forWord) (ho : o.kind = .openParen) (hdest : Accepts ds (.term dest))
    (hm : m.kind = .semicolon) (hsrc : Accepts ts (.term src)) (hp : p.kind = .closeParen)
    (hne : us ≠ []) (hbody : Accepts us (.body body)) :
    Accepts (w :: o :: (ds ++ m :: (ts ++ p :: us)))
      (.item (.stmt (.forLoop dest src body (w.span.through us))) false) := by
  refine ⟨⟨w, _, rfl, by rw [hk]; rfl⟩, ?_⟩
  intro fuel feed feed₁ feed' enclosure opening rest hw htook hnext _ hfuel hrest
  simp only [List.length_cons, List.length_append] at hfuel
  obtain ⟨fuel, rfl⟩ := Nat.exists_eq_add_one.mpr (show 0 < fuel by omega)
  obtain ⟨feed₂, hword, hword', htail⟩ := htook.expect hk
  obtain ⟨feed₃, hopen, ho', htail⟩ := htail.expect ho
  obtain ⟨feed₄, hds, htail⟩ := htail.split
  have hw₃ := ho'.whole (hword'.whole hw)
  have hd : term fuel feed₃ = .done dest feed₄ :=
    hdest hw₃ hds (by rw [htail.nextKind, hm]; nofun) (by omega)
  obtain ⟨feed₅, hsemi, hm', htail⟩ := htail.expect hm
  obtain ⟨feed₆, hts, htail⟩ := htail.split
  have hw₅ := hm'.whole (hds.whole hw₃)
  have hr : term fuel feed₅ = .done src feed₆ :=
    hsrc hw₅ hts (by rw [htail.nextKind, hp]; nofun) (by omega)
  obtain ⟨feed₇, hclose, hp', hus⟩ := htail.expect hp
  have hb : bracedBlock fuel feed₇ = .done body feed₁ :=
    bracedBlock_of_took hbody (hp'.whole (hts.whole hw₅)) hus (by omega)
  have hs : forStmt (fuel + 1) feed =
      .done (.forLoop dest src body (w.span.through us)) feed₁ := by
    simp only [forStmt, bind_eq_done, lastSpan_eq_done, pure_eq_done]
    refine ⟨_, _, hword, _, _, hopen, _, _, hd, _, _, hsemi, _, _, hr, _, _, hclose, _, _, hb, _, _,
      ⟨rfl, rfl⟩, ?_, rfl⟩
    rw [hus.through hne]
  rw [items]
  simp only [bind_eq_done]
  refine ⟨w, _, htook.peek, ?_⟩
  rw [hk]
  simp only [bind_eq_done, pure_eq_done]
  exact ⟨_, _, hs, _, _, hrest, rfl, rfl⟩

theorem accepts_ifStmt {w o p : Token} {rs : List Token} {x : Conditions} {body : Block}
    {alternative : Option Block} (hk : w.kind = .ifWord) (ho : o.kind = .openParen)
    (hx : Accepts ts (.conds x)) (hp : p.kind = .closeParen) (hne : us ≠ [])
    (hbody : Accepts us (.body body)) (helse : Accepts rs (.otherwise alternative)) :
    Accepts (w :: o :: (ts ++ p :: (us ++ rs)))
      (.ifStmt (.ifElse x body alternative (w.span.through (us ++ rs)))
        (w.span.through (us ++ rs))) := by
  refine ⟨w, _, rfl, hk, ?_⟩
  intro fuel feed feed' hw htook hnext hfuel
  simp only [List.length_cons, List.length_append] at hfuel
  obtain ⟨fuel, rfl⟩ := Nat.exists_eq_add_one.mpr (show 0 < fuel by omega)
  obtain ⟨feed₂, hword, hword', htail⟩ := htook.expect hk
  obtain ⟨feed₃, hopen, ho', htail⟩ := htail.expect ho
  obtain ⟨feed₄, hts, htail⟩ := htail.split
  have hw₃ := ho'.whole (hword'.whole hw)
  have hc : conditions fuel feed₃ = .done x feed₄ :=
    hx hw₃ hts (by rw [htail.nextKind, hp]) (by omega)
  obtain ⟨feed₅, hclose, hp', htail⟩ := htail.expect hp
  obtain ⟨feed₆, hus, hrs⟩ := htail.split
  have hw₅ := hp'.whole (hts.whole hw₃)
  have hb : bracedBlock fuel feed₅ = .done body feed₆ :=
    bracedBlock_of_took hbody hw₅ hus (by omega)
  have he : elseBranch fuel feed₆ = .done alternative feed' :=
    helse (hus.whole hw₅) hrs hnext (by omega)
  simp only [ifStmt, bind_eq_done, lastSpan_eq_done, pure_eq_done]
  refine ⟨_, _, hword, _, _, hopen, _, _, hc, _, _, hclose, _, _, hb, _, _, he, _, _,
    ⟨rfl, rfl⟩, ?_, rfl⟩
  rw [htail.through (by simp [hne])]

theorem accepts_noElse : Accepts [] (.otherwise none) := by
  intro fuel feed feed' hw htook hnext hfuel
  obtain ⟨fuel, rfl⟩ := Nat.exists_eq_add_one.mpr (show 0 < fuel by omega)
  obtain rfl := htook.eq_of_nil
  simp only [elseBranch, bind_eq_done]
  exact ⟨false, _, eat_other hw hnext, rfl⟩

theorem accepts_elseIf {e : Token} {s : Stmt} {span : Span} (hk : e.kind = .elseWord)
    (h : Accepts ts (.ifStmt s span)) :
    Accepts (e :: ts) (.otherwise (some ⟨[s], [], span⟩)) := by
  obtain ⟨w, us, rfl, hword, hparse⟩ := h
  intro fuel feed feed' hw htook hnext hfuel
  rw [List.length_cons] at hfuel
  obtain ⟨fuel, rfl⟩ := Nat.exists_eq_add_one.mpr (show 0 < fuel by omega)
  obtain ⟨feed₁, heat, he, hts⟩ := htook.eat hk
  have hif : ifStmt fuel feed₁ = .done (s, span) feed' :=
    hparse (he.whole hw) hts hnext (by omega)
  simp only [elseBranch, bind_eq_done]
  refine ⟨true, _, heat, ?_⟩
  simp only [if_true, bind_eq_done]
  refine ⟨w, _, hts.peek, ?_⟩
  rw [hword]
  simp only [bind_eq_done, pure_eq_done]
  exact ⟨_, _, hif, rfl, rfl⟩

theorem accepts_elseBody {e : Token} {b : Block} (hk : e.kind = .elseWord)
    (h : Accepts ts (.body b)) : Accepts (e :: ts) (.otherwise (some b)) := by
  intro fuel feed feed' hw htook hnext hfuel
  rw [List.length_cons] at hfuel
  obtain ⟨fuel, rfl⟩ := Nat.exists_eq_add_one.mpr (show 0 < fuel by omega)
  obtain ⟨feed₁, heat, he, hts⟩ := htook.eat hk
  have hb : bracedBlock fuel feed₁ = .done b feed' :=
    bracedBlock_of_took h (he.whole hw) hts (by omega)
  obtain ⟨o, us, rfl, hbrace, -⟩ := h
  simp only [elseBranch, bind_eq_done]
  refine ⟨true, _, heat, ?_⟩
  simp only [if_true, bind_eq_done]
  refine ⟨o, _, hts.peek, ?_⟩
  rw [hbrace]
  simp only [bind_eq_done, pure_eq_done]
  exact ⟨_, _, hb, rfl, rfl⟩

/-! ### Blocks and definitions -/

theorem accepts_body {o c : Token} {l : List Item} (ho : o.kind = .openBrace)
    (h : Accepts ts (.items l)) (hc : c.kind = .closeBrace) :
    Accepts (o :: (ts ++ [c])) (.body (.ofItems l (o.span.through (ts ++ [c])))) := by
  refine ⟨o, ts ++ [c], rfl, ho, ?_⟩
  intro fuel feed feed' hw htook hfuel
  simp only [List.length_append, List.length_cons, List.length_nil] at hfuel
  obtain ⟨fuel, rfl⟩ := Nat.exists_eq_add_one.mpr (show 0 < fuel by omega)
  have hitems : items fuel .braces o.span feed = .done l feed' :=
    h.2 hw ⟨c, hc, htook⟩ nofun (by omega)
  simp only [block, bind_eq_done, lastSpan_eq_done, pure_eq_done]
  refine ⟨_, _, hitems, _, _, ⟨rfl, rfl⟩, ?_, rfl⟩
  rw [htook.through (by simp)]
  rfl

/-- The parameters and the body of a definition, before its `end`. -/
theorem accepts_fnBody {f n o e : Token} {params : List (Bool × String)} {l : List Item}
    {fuel : Nat} {feed feed' : Feed} {x : Item} (hn : n.kind = .identifier)
    (ho : o.kind = .openParen) (hne : ts ≠ []) (hparams : Accepts ts (.parameters params))
    (hl : Accepts us (.items l)) (he : e.kind = .endWord) (hw : feed.Whole) {es : List Token}
    (htook : Took feed (n :: o :: (ts ++ (us ++ e :: es))) feed')
    (hfuel : 4 * (ts.length + us.length + 1) ≤ fuel)
    (h : ∀ {feed₁ feed₂ : Feed}, Took feed₁ [e] feed₂ → Took feed₂ es feed' →
      feed₂.Whole →
      (do let _ ← eat .fnWord
          return .fn ⟨n.text, params.map Prod.snd, outPositions 0 params,
            .ofItems l (f.span.through (ts ++ us)), (f.span.merge e.span).merge (← lastSpan)⟩ :
        Parse Item) feed₂ = .done x feed') :
    fnItem (fuel + 1) f.span feed = .done x feed' := by
  obtain ⟨feed₂, hname, hn', htail⟩ := htook.expectName hn
  obtain ⟨feed₃, hadv, ho', htail⟩ := htail.uncons
  obtain ⟨feed₄, hts, htail⟩ := htail.split
  have hw₃ := ho'.whole (hn'.whole hw)
  have hps : parameters fuel feed₃ = .done params feed₄ := hparams hw₃ hts (by omega)
  obtain ⟨feed₅, hus, htail⟩ := htail.split
  obtain ⟨feed₆, hadv', he', hes⟩ := htail.uncons
  have hw₄ := hts.whole hw₃
  obtain ⟨k, rfl⟩ := Nat.exists_eq_add_one.mpr (show 0 < fuel by omega)
  have hitems : items k .function f.span feed₄ = .done l feed₅ :=
    hl.2 hw₄ hus (by rw [htail.nextKind, he]; exact fun _ => rfl) (by omega)
  have hbody : block (k + 1) .function f.span feed₄ =
      .done (.ofItems l (f.span.through (ts ++ us))) feed₅ := by
    simp only [block, bind_eq_done, lastSpan_eq_done, pure_eq_done]
    refine ⟨_, _, hitems, _, _, ⟨rfl, rfl⟩, ?_, rfl⟩
    rw [(hts.trans hus).through (by simp [hne])]
    rfl
  rw [fnItem]
  simp only [bind_eq_done]
  refine ⟨n, _, hname, o, _, hadv, ?_⟩
  rw [ho]
  simp only [bind_eq_done]
  refine ⟨_, _, hps, _, _, hbody, e, _, hadv', ?_⟩
  rw [if_pos he]
  exact h he' hes (he'.whole (hus.whole hw₄))

theorem accepts_fnEnd {f n o e : Token} {params : List (Bool × String)} {l : List Item}
    (hf : f.kind = .fnWord) (hn : n.kind = .identifier) (ho : o.kind = .openParen)
    (hne : ts ≠ []) (hparams : Accepts ts (.parameters params)) (hl : Accepts us (.items l))
    (he : e.kind = .endWord) :
    Accepts (f :: n :: o :: (ts ++ (us ++ [e])))
      (.item (.fn ⟨n.text, params.map Prod.snd, outPositions 0 params,
        .ofItems l (f.span.through (ts ++ us)), (f.span.merge e.span).merge e.span⟩) true) := by
  refine ⟨⟨f, _, rfl, by rw [hf]; rfl⟩, ?_⟩
  intro fuel feed feed₁ feed' enclosure opening rest hw htook hnext hbare hfuel hrest
  simp only [List.length_cons, List.length_append, List.length_nil] at hfuel
  obtain ⟨fuel, rfl⟩ := Nat.exists_eq_add_one.mpr (show 0 < fuel by omega)
  obtain ⟨feed₂, hadv, hf', htail⟩ := htook.uncons
  refine items_fn hf htook.peek hadv ?_ hrest
  refine accepts_fnBody hn ho hne hparams hl he (hf'.whole hw) htail (by omega) ?_
  intro feed₃ feed₄ he' hend hw₄
  obtain rfl := hend.eq_of_nil
  simp only [bind_eq_done, lastSpan_eq_done, pure_eq_done]
  refine ⟨_, _, eat_other hw₄ (hbare rfl), _, _, ⟨rfl, rfl⟩, ?_, rfl⟩
  rw [he'.last]
  rfl

theorem accepts_fnEndFn {f n o e g : Token} {params : List (Bool × String)} {l : List Item}
    (hf : f.kind = .fnWord) (hn : n.kind = .identifier) (ho : o.kind = .openParen)
    (hne : ts ≠ []) (hparams : Accepts ts (.parameters params)) (hl : Accepts us (.items l))
    (he : e.kind = .endWord) (hg : g.kind = .fnWord) :
    Accepts (f :: n :: o :: (ts ++ (us ++ [e, g])))
      (.item (.fn ⟨n.text, params.map Prod.snd, outPositions 0 params,
        .ofItems l (f.span.through (ts ++ us)), (f.span.merge e.span).merge g.span⟩) false) := by
  refine ⟨⟨f, _, rfl, by rw [hf]; rfl⟩, ?_⟩
  intro fuel feed feed₁ feed' enclosure opening rest hw htook hnext hbare hfuel hrest
  simp only [List.length_cons, List.length_append, List.length_nil] at hfuel
  obtain ⟨fuel, rfl⟩ := Nat.exists_eq_add_one.mpr (show 0 < fuel by omega)
  obtain ⟨feed₂, hadv, hf', htail⟩ := htook.uncons
  refine items_fn hf htook.peek hadv ?_ hrest
  refine accepts_fnBody hn ho hne hparams hl he (hf'.whole hw) htail (by omega) ?_
  intro feed₃ feed₄ he' hg' hw₄
  obtain ⟨feed₅, heat, hlast, hend⟩ := hg'.eat hg
  obtain rfl := hend.eq_of_nil
  simp only [bind_eq_done, lastSpan_eq_done, pure_eq_done]
  refine ⟨_, _, heat, _, _, ⟨rfl, rfl⟩, ?_, rfl⟩
  rw [hlast.last]
  rfl

/-- The kind of the token that a block ends with or before. -/
def Enclosure.closer : Enclosure → Kind
  | .program => .eof
  | .braces => .closeBrace
  | .function => .endWord

theorem Ended.split {feed feed' : Feed} {enclosure : Enclosure}
    (h : Ended feed (ts ++ us) feed' enclosure) :
    ∃ feed₁, Took feed ts feed₁ ∧ Ended feed₁ us feed' enclosure := by
  cases enclosure with
  | program =>
    obtain ⟨feed₁, hts, hus⟩ := h.1.split
    exact ⟨feed₁, hts, hus, h.2⟩
  | braces =>
    obtain ⟨c, hc, htook⟩ := h
    rw [List.append_assoc] at htook
    obtain ⟨feed₁, hts, hus⟩ := htook.split
    exact ⟨feed₁, hts, c, hc, hus⟩
  | function => exact Took.split h

theorem Ended.nextKind {feed feed' : Feed} {enclosure : Enclosure}
    (h : Ended feed ts feed' enclosure)
    (hend : enclosure = .function → feed'.nextKind = .endWord) :
    feed.nextKind = (ts.head?.map Token.kind).getD enclosure.closer := by
  cases ts with
  | nil =>
    cases enclosure with
    | program =>
      obtain ⟨htook, hitems⟩ := h
      rw [← htook.eq_of_nil, Feed.nextKind, hitems]
      rfl
    | braces =>
      obtain ⟨c, hc, htook⟩ := h
      exact htook.nextKind.trans hc
    | function =>
      rw [← Took.eq_of_nil h, hend rfl]
      rfl
  | cons t ts =>
    cases enclosure with
    | program => exact h.1.nextKind
    | braces =>
      obtain ⟨c, -, htook⟩ := h
      exact htook.nextKind
    | function => exact Took.nextKind h

theorem accepts_noItems : Accepts [] (.items []) := by
  refine ⟨nofun, ?_⟩
  intro fuel feed feed' enclosure opening hw hended hend hfuel
  obtain ⟨fuel, rfl⟩ := Nat.exists_eq_add_one.mpr (show 0 < fuel by omega)
  have hkind := hended.nextKind hend
  obtain ⟨t, hpeek, ht⟩ := peek_whole hw
  simp only [items, bind_eq_done]
  refine ⟨t, _, hpeek, ?_⟩
  rw [ht, hkind]
  cases enclosure with
  | program => rw [hended.1.eq_of_nil]; rfl
  | braces =>
    obtain ⟨c, hc, htook⟩ := hended
    obtain ⟨feed₁, hadv, -, hnil⟩ := htook.uncons
    obtain rfl := hnil.eq_of_nil
    simp only [Enclosure.closer, List.head?_nil, Option.map_none, Option.getD_none, if_true,
      bind_eq_done, pure_eq_done]
    exact ⟨_, _, hadv, trivial, rfl⟩
  | function => rw [Took.eq_of_nil hended]; rfl

theorem accepts_semicolon {s : Token} {l : List Item} (hs : s.kind = .semicolon)
    (h : Accepts ts (.items l)) : Accepts (s :: ts) (.items l) := by
  refine ⟨?_, ?_⟩
  · rintro t ⟨⟩
    rw [hs]
    rfl
  · intro fuel feed feed' enclosure opening hw hended hend hfuel
    rw [List.length_cons] at hfuel
    obtain ⟨fuel, rfl⟩ := Nat.exists_eq_add_one.mpr (show 0 < fuel by omega)
    rw [← List.singleton_append] at hended
    obtain ⟨feed₁, hs', hrest⟩ := hended.split
    obtain ⟨feed₂, hadv, -, hnil⟩ := hs'.uncons
    obtain rfl := hnil.eq_of_nil
    simp only [items, bind_eq_done]
    refine ⟨s, _, hs'.peek, ?_⟩
    rw [hs]
    simp only [bind_eq_done]
    exact ⟨_, _, hadv, h.2 (hs'.whole hw) hrest hend (by omega)⟩

theorem accepts_nextItem {x : Item} {bare : Bool} {l : List Item} (hx : Accepts ts (.item x bare))
    (h : Accepts us (.items l)) (hbare : bare = true → ∀ t ∈ us.head?, t.kind ≠ .fnWord) :
    Accepts (ts ++ us) (.items (x :: l)) := by
  obtain ⟨⟨w, vs, rfl, hword⟩, hitem⟩ := hx
  refine ⟨?_, ?_⟩
  · rintro t ⟨⟩
    exact hword
  · intro fuel feed feed' enclosure opening hw hended hend hfuel
    simp only [List.length_append, List.length_cons] at hfuel hitem
    obtain ⟨fuel, rfl⟩ := Nat.exists_eq_add_one.mpr (show 0 < fuel by omega)
    obtain ⟨feed₁, hts, hrest⟩ := hended.split
    have hnext := hrest.nextKind hend
    have hl : items fuel enclosure opening feed₁ = .done l feed' :=
      h.2 (hts.whole hw) hrest hend (by omega)
    refine hitem hw hts ?_ ?_ (by omega) hl
    · rw [hnext]
      cases us with
      | nil => cases enclosure <;> rfl
      | cons u us => exact h.1 u rfl
    · intro hb
      rw [hnext]
      cases us with
      | nil => cases enclosure <;> nofun
      | cons u us => exact hbare hb u rfl

end

end Parse

/-- The parser takes what is spelled, and gives the phrase it stands for. -/
theorem Spells.accepts {ts : List Token} {p : Phrase} (h : Spells ts p) : Accepts ts p := by
  induction h with
  | tierName hword hname => exact accepts_tierName hword hname
  | tierDotName hword hdot hname => exact accepts_tierDotName hword hdot hname
  | tierVar _ ih => exact accepts_tierVar ih
  | name hname => exact accepts_name hname
  | group hopen _ hclose ih => exact accepts_group hopen ih hclose
  | number hkind hvalue => exact accepts_number hkind hvalue
  | negativeNumber hminus hkind hvalue => exact accepts_negativeNumber hminus hkind hvalue
  | str hkind | trueWord hkind | falseWord hkind | nullWord hkind =>
    refine accepts_atom (by simp [hkind]) fun fuel feed => ?_
    rw [Parse.operand, hkind]
    rfl
  | var _ ih => exact accepts_var ih
  | negativeVar hminus _ ih => exact accepts_negativeVar hminus ih
  | term _ ih => exact accepts_term ih
  | invertedTerm hnot _ ih => exact accepts_invertedTerm hnot ih
  | noOperands => exact accepts_noOperands
  | operand hop _ hr iht ihr => exact accepts_operand hop iht hr ihr
  | invertedOperand hnot hop _ hr iht ihr => exact accepts_invertedOperand hnot hop iht hr ihr
  | expr ht hr iht ihr => exact accepts_expr (ht.ne_nil rfl) iht hr ihr
  | test he ih => exact accepts_test (he.ne_nil rfl) ih
  | comparison _ hop hr ihl ihr => exact accepts_comparison (hr.ne_nil rfl) ihl hop ihr
  | noConds => exact accepts_noConds
  | nextCond hop _ hr ihc ihr => exact accepts_nextCond hop ihc hr ihr
  | conds hc hr ihc ihr => exact accepts_conds (hc.ne_nil rfl) ihc hr ihr
  | lastArgument _ hc ih => exact accepts_lastArgument ih hc
  | nextArgument _ hc _ ihe ihr => exact accepts_nextArgument ihe hc ihr
  | noArguments hc => exact accepts_noArguments hc
  | someArguments hmore ih => exact accepts_someArguments hmore ih
  | lastParameter hn hc => exact accepts_lastParameter (.inl ⟨rfl, rfl⟩) hn hc
  | nextParameter hn hc _ ih => exact accepts_nextParameter (.inl ⟨rfl, rfl⟩) hn hc ih
  | lastOut hs hn hc => exact accepts_lastParameter (.inr ⟨_, hs, rfl, rfl⟩) hn hc
  | nextOut hs hn hc _ ih => exact accepts_nextParameter (.inr ⟨_, hs, rfl, rfl⟩) hn hc ih
  | noParameters hc => exact accepts_noParameters hc
  | someParameters hmore ih => exact accepts_someParameters hmore ih
  | assign _ hq _ ihv ihe => exact accepts_assign ihv hq ihe
  | call hn ho ha ih => exact accepts_call hn ho (ha.ne_nil rfl) ih
  | moduleCall hm hd hn ho ha ih => exact accepts_moduleCall hm hd hn ho (ha.ne_nil rfl) ih
  | fnModuleCall hf hm hd hn ho ha ih =>
    exact accepts_fnModuleCall hf hm hd hn ho (ha.ne_nil rfl) ih
  | breakLoop hk => exact accepts_breakLoop hk
  | endCode hk => exact accepts_endCode hk
  | block _ ih => exact accepts_block ih
  | ifItem _ ih => exact accepts_ifItem ih
  | whileLoop hk ho _ hp hb ihc ihb => exact accepts_whileLoop hk ho ihc hp (hb.ne_nil rfl) ihb
  | forLoop hk ho _ hm _ hp hb ihd ihs ihb =>
    exact accepts_forLoop hk ho ihd hm ihs hp (hb.ne_nil rfl) ihb
  | ifStmt hk ho _ hp hb _ ihc ihb ihr => exact accepts_ifStmt hk ho ihc hp (hb.ne_nil rfl) ihb ihr
  | noElse => exact accepts_noElse
  | elseIf hk _ ih => exact accepts_elseIf hk ih
  | elseBody hk _ ih => exact accepts_elseBody hk ih
  | body ho _ hc ih => exact accepts_body ho ih hc
  | fnEnd hf hn ho hp _ he ihp ihi => exact accepts_fnEnd hf hn ho (hp.ne_nil rfl) ihp ihi he
  | fnEndFn hf hn ho hp _ he hg ihp ihi =>
    exact accepts_fnEndFn hf hn ho (hp.ne_nil rfl) ihp ihi he hg
  | noItems => exact accepts_noItems
  | semicolon hs _ ih => exact accepts_semicolon hs ih
  | nextItem _ _ hbare ihx ihr => exact accepts_nextItem ihx ihr hbare

end TierScript
