import Mathlib.Data.List.Chain
import TierScript.Proofs.Program.Soundness

/-!
# The words that definitions are enclosed in

A definition starts with `fn` and ends with `end`, and with a `fn` after that if there is one. No
other phrase has these words, except that a call of a function of a module may start with `fn`.

* `Spells.plain`: phrases without statements have none of them.
* `Spells.of_parts`: what holds of tokens without these words holds of every phrase, if definitions
  and calls keep to it.
* `Spells.balanced`: there are as many `end` as `fn` that start a definition. A `fn` directly after
  an `end` does not start one.
* `Spells.undotted`: no dot comes directly after a `fn`.
-/

namespace TierScript

open Parse (Item)

/-! ## Tokens within definitions -/

/-- The two words that a definition is enclosed in. -/
def Kind.encloses (k : Kind) : Bool := k = .fnWord || k = .endWord

theorem Kind.encloses_of_arithOp? {k : Kind} {op : ArithOp} (h : k.arithOp? = some op) :
    k.encloses = false := by
  cases k <;> first | rfl | cases h

theorem Kind.encloses_of_relOp? {k : Kind} {op : RelOp} (h : k.relOp? = some op) :
    k.encloses = false := by
  cases k <;> first | rfl | cases h

theorem Kind.encloses_of_boolOp? {k : Kind} {op : BoolOp} (h : k.boolOp? = some op) :
    k.encloses = false := by
  cases k <;> first | rfl | cases h

/-- There is neither a `fn` nor an `end` among the tokens. -/
def Plain (ts : List Token) : Prop := ∀ t ∈ ts, t.kind.encloses = false

@[simp] theorem plain_nil : Plain [] := nofun

@[simp] theorem plain_cons {t : Token} {ts : List Token} :
    Plain (t :: ts) ↔ t.kind.encloses = false ∧ Plain ts := List.forall_mem_cons

@[simp] theorem plain_append {ts us : List Token} : Plain (ts ++ us) ↔ Plain ts ∧ Plain us :=
  List.forall_mem_append

/-- Phrases in which there are no statements. -/
def Phrase.plain : Phrase → Bool
  | .body _ | .ifStmt _ _ | .otherwise _ | .item _ _ | .items _ => false
  | _ => true

theorem Spells.plain {ts : List Token} {p : Phrase} (h : Spells ts p) (hp : p.plain = true) :
    Plain ts := by
  induction h with
  | operand ho _ _ iht ihr =>
    simp [Kind.encloses_of_arithOp? ho, iht rfl, ihr rfl]
  | @invertedOperand n _ _ _ _ _ _ hn ho _ _ iht ihr =>
    have hnot : n.kind.encloses = false := by rw [hn]; rfl
    simp [hnot, Kind.encloses_of_arithOp? ho, iht rfl, ihr rfl]
  | comparison _ ho _ ihl ihr => simp [Kind.encloses_of_relOp? ho, ihl rfl, ihr rfl]
  | nextCond ho _ _ ihc ihr => simp [Kind.encloses_of_boolOp? ho, ihc rfl, ihr rfl]
  | tierVar _ ih | var _ ih | term _ ih | test _ ih | someArguments _ ih | someParameters _ ih =>
    exact ih rfl
  | _ => simp_all [Phrase.plain, Kind.encloses]

/-- Whether the last of the tokens is an `end`; without tokens, whether the one before is. -/
def afterEnd (closed : Bool) (ts : List Token) : Bool :=
  ts.foldl (fun _ t => t.kind = .endWord) closed

@[simp] theorem afterEnd_nil (closed : Bool) : afterEnd closed [] = closed := rfl

@[simp] theorem afterEnd_cons (closed : Bool) (t : Token) (ts : List Token) :
    afterEnd closed (t :: ts) = afterEnd (t.kind = .endWord) ts := rfl

@[simp] theorem afterEnd_append (closed : Bool) (ts us : List Token) :
    afterEnd closed (ts ++ us) = afterEnd (afterEnd closed ts) us := List.foldl_append

theorem Kind.ne_of_encloses {k : Kind} (h : k.encloses = false) : k ≠ .fnWord ∧ k ≠ .endWord := by
  simpa [encloses] using h

theorem Plain.afterEnd_eq {ts : List Token} (h : Plain ts) : afterEnd false ts = false := by
  induction ts with
  | nil => rfl
  | cons t ts ih =>
    obtain ⟨ht, hts⟩ := plain_cons.mp h
    rw [afterEnd_cons, decide_eq_false (Kind.ne_of_encloses ht).2]
    exact ih hts

/-- Whether a phrase ends with `end`. For items in order that depends on the last of them. -/
def Phrase.ending? : Phrase → Option Bool
  | .items _ => none
  | .item _ bare => some bare
  | _ => some false

theorem Spells.afterEnd_eq {ts : List Token} {p : Phrase} (h : Spells ts p) :
    ∀ b ∈ p.ending?, afterEnd false ts = b := by
  by_cases hplain : p.plain = true
  · have hending : p.ending? = some false := by cases p <;> first | rfl | cases hplain
    rw [hending]
    rintro _ ⟨⟩
    exact (h.plain hplain).afterEnd_eq
  rw [Bool.not_eq_true] at hplain
  induction h with
  | assign hv hq he =>
    rintro _ ⟨⟩
    simp [(hv.plain rfl).afterEnd_eq, (he.plain rfl).afterEnd_eq, hq]
  | call hn ho ha | moduleCall hm hd hn ho ha | fnModuleCall hf hm hd hn ho ha =>
    rintro _ ⟨⟩
    simp [(ha.plain rfl).afterEnd_eq, ho]
  | breakLoop ht | endCode ht =>
    rintro _ ⟨⟩
    simp [ht]
  | block _ ih | ifItem _ ih => exact ih rfl
  | whileLoop _ _ _ hp _ _ ih | forLoop _ _ _ _ _ hp _ _ _ ih =>
    rintro _ ⟨⟩
    simp [hp, ih rfl _ rfl]
  | ifStmt _ _ _ hp _ _ _ ihb ihr =>
    rintro _ ⟨⟩
    simp [hp, ihb rfl _ rfl, ihr rfl _ rfl]
  | noElse =>
    rintro _ ⟨⟩
    rfl
  | elseIf he _ ih | elseBody he _ ih =>
    rintro _ ⟨⟩
    simp [he, ih rfl _ rfl]
  | body _ _ hc | fnEnd _ _ _ _ _ hc | fnEndFn _ _ _ _ _ _ hc =>
    rintro _ ⟨⟩
    simp [hc]
  | noItems | semicolon | nextItem => exact nofun
  | _ => cases hplain

theorem forall_head?_append {P : Token → Prop} {ts us : List Token} (h : ∀ t ∈ ts.head?, P t)
    (h' : ∀ t ∈ us.head?, P t) : ∀ t ∈ (ts ++ us).head?, P t := by
  cases ts with
  | nil => exact h'
  | cons => exact h

/-- No phrase starts with a dot. -/
theorem Spells.head_ne_dot {ts : List Token} {p : Phrase} (h : Spells ts p) :
    ∀ t ∈ ts.head?, t.kind ≠ .dot := by
  have hone {t : Token} {k : Kind} {ts : List Token} (ht : t.kind = k) (hk : k ≠ .dot) :
      ∀ u ∈ (t :: ts).head?, u.kind ≠ .dot := by
    rintro _ ⟨⟩
    rwa [ht]
  induction h with
  | tierVar _ ih | var _ ih | term _ ih | test _ ih | someArguments _ ih | someParameters _ ih
  | block _ ih | ifItem _ ih => exact ih
  | noOperands | noConds | noElse | noItems => exact nofun
  | expr _ _ ih ih' | conds _ _ ih ih' | nextItem _ _ _ ih ih' => exact forall_head?_append ih ih'
  | lastArgument _ hc ih | nextArgument _ hc _ ih | assign _ hc _ ih =>
    exact forall_head?_append ih (hone hc nofun)
  | comparison _ ho _ ih =>
    refine forall_head?_append ih (hone rfl fun hk => ?_)
    rw [hk] at ho
    cases ho
  | operand ho | nextCond ho =>
    refine hone rfl fun hk => ?_
    rw [hk] at ho
    cases ho
  | tierName hk | tierDotName hk | name hk | group hk | number hk | negativeNumber hk | str hk
  | trueWord hk | falseWord hk | nullWord hk | negativeVar hk | invertedTerm hk
  | invertedOperand hk | noArguments hk | lastParameter hk | nextParameter hk | lastOut hk
  | nextOut hk | noParameters hk | call hk | moduleCall hk | fnModuleCall hk | breakLoop hk
  | endCode hk | whileLoop hk | forLoop hk | ifStmt hk | elseIf hk | elseBody hk | body hk
  | fnEnd hk | fnEndFn hk | semicolon hk => exact hone hk nofun

/-- What holds of tokens without `fn` and `end`, and of definitions and calls with `fn` and of
    tokens after tokens if it holds of the parts, holds of every phrase. -/
theorem Spells.of_parts {P : List Token → Prop} {ts : List Token} {p : Phrase} (h : Spells ts p)
    (plain : ∀ {ts}, Plain ts → P ts)
    (append : ∀ {ts us}, P ts → P us →
      (afterEnd false ts = true → ∀ t ∈ us.head?, t.kind ≠ .fnWord) →
      (∀ t ∈ us.head?, t.kind ≠ .dot) → P (ts ++ us))
    (call : ∀ {f m d ts}, f.kind = .fnWord → m.kind = .identifier → d.kind = .dot → Plain ts →
      P (f :: m :: d :: ts))
    (definition : ∀ {f n o ts e us}, f.kind = .fnWord → n.kind = .identifier →
      o.kind = .openParen → P ts → e.kind = .endWord → (∀ t ∈ us, t.kind = .fnWord) →
      us.length ≤ 1 → P (f :: n :: o :: (ts ++ e :: us))) :
    P ts := by
  have hfront {front back : List Token} {p : Phrase} (hplain : Plain front)
      (hspell : Spells back p) (hback : P back) : P (front ++ back) :=
    append (plain hplain) hback (by rw [hplain.afterEnd_eq]; nofun) hspell.head_ne_dot
  have hcons {t : Token} {back : List Token} {p : Phrase} (ht : t.kind.encloses = false)
      (hspell : Spells back p) (hback : P back) : P (t :: back) :=
    hfront (plain_cons.mpr ⟨ht, plain_nil⟩) hspell hback
  by_cases hplain : p.plain = true
  · exact plain (h.plain hplain)
  rw [Bool.not_eq_true] at hplain
  induction h with
  | assign hv hq he => exact plain (by simp [hv.plain rfl, hq, he.plain rfl, Kind.encloses])
  | call hn ho ha => exact plain (by simp [hn, ho, ha.plain rfl, Kind.encloses])
  | moduleCall hm hd hn ho ha =>
    exact plain (by simp [hm, hd, hn, ho, ha.plain rfl, Kind.encloses])
  | fnModuleCall hf hm hd hn ho ha =>
    exact call hf hm hd (by simp [hn, ho, ha.plain rfl, Kind.encloses])
  | breakLoop ht | endCode ht => exact plain (by simp [ht, Kind.encloses])
  | block _ ih | ifItem _ ih => exact ih rfl
  | @whileLoop w o c x p b body hw ho hc hp hb _ ih =>
    have hloop : Plain (w :: o :: (c ++ [p])) := by
      simp [hw, ho, hc.plain rfl, hp, Kind.encloses]
    simpa using hfront hloop hb (ih rfl)
  | @forLoop w o d dest m s src p b body hw ho hd hm hs hp hb _ _ ih =>
    have hloop : Plain (w :: o :: (d ++ m :: (s ++ [p]))) := by
      simp [hw, ho, hd.plain rfl, hm, hs.plain rfl, hp, Kind.encloses]
    simpa using hfront hloop hb (ih rfl)
  | @ifStmt w o c x p b body r alternative hw ho hc hp hb hr _ ihb ihr =>
    have htest : Plain (w :: o :: (c ++ [p])) := by
      simp [hw, ho, hc.plain rfl, hp, Kind.encloses]
    have hbody := hfront htest hb (ihb rfl)
    have hclosed : afterEnd false (w :: o :: (c ++ [p]) ++ b) = false := by
      rw [afterEnd_append, htest.afterEnd_eq, hb.afterEnd_eq _ rfl]
    have hboth := append hbody (ihr rfl) (by rw [hclosed]; nofun) hr.head_ne_dot
    simpa using hboth
  | noElse | noItems => exact plain plain_nil
  | elseIf hk h ih | elseBody hk h ih | semicolon hk h ih =>
    exact hcons (by rw [hk]; rfl) h (ih rfl)
  | @body o ts l c ho hl hc ih =>
    have hclose : Plain [c] := by simp [hc, Kind.encloses]
    exact append (hcons (by rw [ho]; rfl) hl (ih rfl)) (plain hclose)
      (by rintro - _ ⟨⟩; rw [hc]; nofun) (by rintro _ ⟨⟩; rw [hc]; nofun)
  | fnEnd hf hn ho hps his he _ ih =>
    have hbody := hfront (hps.plain rfl) his (ih rfl)
    rw [← List.append_assoc]
    exact definition hf hn ho hbody he nofun (Nat.zero_le 1)
  | fnEndFn hf hn ho hps his he hg _ ih =>
    have hbody := hfront (hps.plain rfl) his (ih rfl)
    rw [← List.append_assoc]
    exact definition hf hn ho hbody he (by simpa using hg) (Nat.le_refl 1)
  | nextItem hx hr hfn ihx ihr =>
    exact append (ihx rfl) (ihr rfl) (by rwa [hx.afterEnd_eq _ rfl]) hr.head_ne_dot
  | _ => cases hplain

/-! ## As many ends as definitions -/

/-- Kinds that are at the start of others are there before the first one that is not one of them. -/
theorem prefix_append_iff {ks as bs : List Kind} {k : Kind} (h : k ∉ ks) :
    ks <+: as ++ k :: bs ↔ ks <+: as := by
  induction as generalizing ks with
  | nil =>
    cases ks with
    | nil => simp
    | cons k' ks =>
      have hne : k' ≠ k := fun heq => h (heq ▸ List.mem_cons_self)
      simp [List.cons_prefix_cons, hne]
  | cons a as ih =>
    cases ks with
    | nil => simp
    | cons k' ks =>
      have hrest : k ∉ ks := List.not_mem_of_not_mem_cons h
      simp [List.cons_prefix_cons, ih hrest]

/-- The tokens start with `fn`, a name and an opening parenthesis, as a definition does. -/
def StartsDefinition (ts : List Token) : Prop :=
  [.fnWord, .identifier, .openParen] <+: ts.map Token.kind

instance : DecidablePred StartsDefinition := fun _ => inferInstanceAs (Decidable (_ <+: _))

theorem startsDefinition_cons {t : Token} {ts : List Token} :
    StartsDefinition (t :: ts) ↔
      t.kind = .fnWord ∧ [.identifier, .openParen] <+: ts.map Token.kind := by
  rw [StartsDefinition, List.map_cons, List.cons_prefix_cons, eq_comm]

theorem StartsDefinition.not_head_ne {ts : List Token} (h : StartsDefinition ts) :
    ¬ ∀ t ∈ ts.head?, t.kind ≠ .fnWord := by
  cases ts with
  | nil => simp [StartsDefinition] at h
  | cons t ts => exact fun hne => hne t rfl (startsDefinition_cons.mp h).1

theorem StartsDefinition.append {ts : List Token} (h : StartsDefinition ts) (us : List Token) :
    StartsDefinition (ts ++ us) := by
  rw [StartsDefinition, List.map_append]
  exact List.IsPrefix.trans h (List.prefix_append _ _)

/-- The number of definitions that start within the tokens, a `fn` after `end` apart. -/
def openings : Bool → List Token → Nat
  | _, [] => 0
  | closed, t :: ts =>
    (if closed = false ∧ StartsDefinition (t :: ts) then 1 else 0) +
      openings (t.kind = .endWord) ts

/-- The number of `end` among the tokens. -/
def endings (ts : List Token) : Nat := ts.countP fun t => t.kind = .endWord

theorem openings_cons {closed : Bool} {t : Token} {ts : List Token}
    (h : closed = true ∨ ¬ StartsDefinition (t :: ts)) :
    openings closed (t :: ts) = openings (t.kind = .endWord) ts := by
  have hnot : ¬ (closed = false ∧ StartsDefinition (t :: ts)) := by
    rintro ⟨rfl, hstarts⟩
    rcases h with h | h
    · cases h
    · exact h hstarts
  rw [openings, if_neg hnot, Nat.zero_add]

theorem openings_cons_other {closed : Bool} {t : Token} {ts : List Token} (h : t.kind ≠ .fnWord) :
    openings closed (t :: ts) = openings (t.kind = .endWord) ts :=
  openings_cons (.inr fun hstarts => h (startsDefinition_cons.mp hstarts).1)

/-- There are as many openings as ends among the tokens, whatever comes after them. -/
def Balanced (ts : List Token) : Prop :=
  ∀ rest, openings false (ts ++ rest) = endings ts + openings (afterEnd false ts) rest

namespace Balanced

variable {ts us : List Token} {t : Token}

theorem nil : Balanced [] := fun rest => (Nat.zero_add (openings false rest)).symm

theorem cons (ht : t.kind.encloses = false) (h : Balanced ts) : Balanced (t :: ts) := by
  intro rest
  obtain ⟨hfn, hend⟩ := Kind.ne_of_encloses ht
  rw [List.cons_append, openings_cons_other hfn, afterEnd_cons, endings, List.countP_cons,
    decide_eq_false hend, h rest]
  simp [endings]

theorem of_plain (hts : Plain ts) : Balanced ts := by
  induction ts with
  | nil => exact .nil
  | cons t ts ih =>
    obtain ⟨ht, hts⟩ := plain_cons.mp hts
    exact (ih hts).cons ht

theorem append (h : Balanced ts) (h' : Balanced us)
    (hus : afterEnd false ts = true → ∀ t ∈ us.head?, t.kind ≠ .fnWord) : Balanced (ts ++ us) := by
  intro rest
  have hback : openings (afterEnd false ts) (us ++ rest) =
      endings us + openings (afterEnd (afterEnd false ts) us) rest := by
    cases hclosed : afterEnd false ts with
    | false => exact h' rest
    | true =>
      -- an `end` in front makes no difference for a token that is not `fn`
      cases us with
      | nil => exact (Nat.zero_add _).symm
      | cons u us =>
        have hu := hus hclosed u rfl
        have heq := h' rest
        rw [List.cons_append, openings_cons_other hu, afterEnd_cons] at heq ⊢
        exact heq
  rw [List.append_assoc, h, hback, afterEnd_append, endings, endings, endings, List.countP_append,
    Nat.add_assoc]

variable {f n o e : Token}

/-- A `fn` that does not start a definition. -/
theorem other_fn (h : Balanced ts) (hf : f.kind = .fnWord)
    (hts : ∀ rest, ¬ StartsDefinition (f :: (ts ++ rest))) : Balanced (f :: ts) := by
  intro rest
  rw [List.cons_append, openings_cons (.inr (hts rest)), afterEnd_cons, endings, List.countP_cons,
    hf, decide_eq_false (by nofun), h rest]
  simp [endings]

/-- The `fn` of a definition and its `end` make up for each other. `us` is the `fn` after the `end`,
    if there is one. -/
theorem definition (hf : f.kind = .fnWord) (hn : n.kind = .identifier) (ho : o.kind = .openParen)
    (h : Balanced ts) (he : e.kind = .endWord) (hus : ∀ t ∈ us, t.kind = .fnWord)
    (hlength : us.length ≤ 1) : Balanced (f :: n :: o :: (ts ++ e :: us)) := by
  intro rest
  have hbehind : openings true (us ++ rest) = endings us + openings (afterEnd true us) rest := by
    match us, hlength with
    | [], _ => exact (Nat.zero_add _).symm
    | [g], _ =>
      have hg := hus g List.mem_cons_self
      simp [openings_cons (t := g) (.inl rfl), endings, hg]
  have hback : openings (afterEnd false ts) (e :: (us ++ rest)) =
      endings us + openings (afterEnd true us) rest := by
    rw [openings_cons_other (by rw [he]; nofun), decide_eq_true he, hbehind]
  have hfront : openings false (f :: n :: o :: (ts ++ e :: us) ++ rest) =
      1 + openings false (ts ++ e :: (us ++ rest)) := by
    have hstarts : StartsDefinition (f :: n :: o :: (ts ++ e :: (us ++ rest))) := by
      simp [startsDefinition_cons, hf, hn, ho]
    simp only [List.cons_append, List.append_assoc]
    rw [openings, if_pos ⟨rfl, hstarts⟩, openings_cons_other (by rw [hn]; nofun),
      openings_cons_other (by rw [ho]; nofun), ho, decide_eq_false (by nofun)]
  rw [hfront, h, hback]
  simp [endings, hf, hn, ho, he]
  omega

end Balanced

/-- In every phrase there are as many definitions as `end`. -/
theorem Spells.balanced {ts : List Token} {p : Phrase} (h : Spells ts p) : Balanced ts := by
  refine h.of_parts Balanced.of_plain ?_ ?_ ?_
  · intro ts us hts hus hclosed _
    exact hts.append hus hclosed
  · intro f m d ts hf hm hd hts
    have hcall : Balanced (m :: d :: ts) := .of_plain (by simp [hm, hd, hts, Kind.encloses])
    exact hcall.other_fn hf fun rest => by simp [startsDefinition_cons, hd]
  · intro f n o ts e us hf hn ho hts he hus hlength
    exact hts.definition hf hn ho he hus hlength

/-- What comes after an `end` has no influence on the openings before it. -/
theorem openings_append_end {e : Token} (he : e.kind = .endWord) (closed : Bool)
    (ts us : List Token) :
    openings closed (ts ++ e :: us) = openings closed (ts ++ [e]) + openings true us := by
  induction ts generalizing closed with
  | nil =>
    have hother : e.kind ≠ .fnWord := by rw [he]; nofun
    rw [List.nil_append, List.nil_append, openings_cons_other hother, openings_cons_other hother,
      decide_eq_true he, openings, Nat.zero_add]
  | cons t ts ih =>
    have hstarts (vs : List Token) :
        StartsDefinition (t :: (ts ++ e :: vs)) ↔ StartsDefinition (t :: ts) := by
      have hkinds : (t :: (ts ++ e :: vs)).map Token.kind =
          (t :: ts).map Token.kind ++ .endWord :: vs.map Token.kind := by simp [he]
      rw [StartsDefinition, hkinds]
      exact prefix_append_iff (by simp)
    simp only [List.cons_append, openings, hstarts, ih _]
    omega

/-! ## No dot after `fn` -/

/-- Directly after a `fn` there is no dot. -/
abbrev Undotted (ts : List Token) : Prop :=
  ts.IsChain fun t u => t.kind = .fnWord → u.kind ≠ .dot

theorem Plain.undotted {ts : List Token} (h : Plain ts) : Undotted ts := by
  induction ts with
  | nil => exact .nil
  | cons t ts ih =>
    obtain ⟨ht, hts⟩ := plain_cons.mp h
    exact List.isChain_cons.mpr
      ⟨fun _ _ hk => absurd hk (Kind.ne_of_encloses ht).1, ih hts⟩

theorem Spells.undotted {ts : List Token} {p : Phrase} (h : Spells ts p) : Undotted ts := by
  refine h.of_parts Plain.undotted ?_ ?_ ?_
  · intro ts us hts hus _ hdot
    exact List.isChain_append.mpr ⟨hts, hus, fun _ _ u hu _ => hdot u hu⟩
  · intro f m d ts hf hm hd hts
    have hts' := hts.undotted
    simp_all [List.isChain_cons]
  · intro f n o ts e us hf hn ho hts he hus hlength
    match us, hlength with
    | [], _ => simp_all [List.isChain_cons, List.isChain_append]
    | [g], _ => simp_all [List.isChain_cons, List.isChain_append]

end TierScript
