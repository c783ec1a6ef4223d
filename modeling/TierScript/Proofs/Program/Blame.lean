import TierScript.Proofs.Program.Faults

/-!
# What the parser complains about

The parser never runs out of fuel, and each of its complaints is about a token that it was fed, at
the span of that token. Both follow from one judgement on the rules of the grammar, which counts the
tokens that are left: a rule that is called again has taken a token in between.

* `Complaint.About`: the complaint names the token.
* `Parse.Accounts`: from a feed with no more than so many tokens a rule gives a result, or a fault
  that the feed is to blame for.
* `parseText_blames`: a text gives a program or such a fault.
-/

namespace TierScript

open Parse

/-! ## Blame -/

/-- The complaint of the parser is about the token. -/
def Complaint.About : Complaint → Token → Prop
  | .unexpected _ found, t | .missingEnd _ found, t => found = t.describe
  | .numberTooLarge digits, t => t.kind = .number ∧ digits = t.text
  | .strayCloseBrace, t => t.kind = .closeBrace
  | .openBrace, t => t.kind = .openBrace
  | .secondDot _, t | .notATier _, t => t.kind = .dot
  | .strayEnd, t => t.kind = .endWord
  | _, _ => False

namespace Feed

/-- The feed can give the token. -/
def Has (F : Feed) (t : Token) : Prop := t ∈ F.items ∨ F.stop = .ok t

/-- The fault is the one that the feed ends with, or a complaint about one of its tokens. -/
def Blames (F : Feed) (f : Fault) : Prop :=
  F.stop = .error f ∨ ∃ t, F.Has t ∧ f.span = t.span ∧ f.complaint.About t

/-- The end of the text comes last, if it comes. -/
structure Regular (F : Feed) : Prop where
  items : ∀ t ∈ F.items, t.kind ≠ .eof
  stop : ∀ t, F.stop = .ok t → t.kind = .eof

/-- The feed is what is left of another one. -/
structure LeftOf (feed F : Feed) : Prop where
  items : feed.items <:+ F.items
  stop : feed.stop = F.stop

end Feed

namespace Parse

/-- From what is left of the feed `F`, no more than `l` tokens, the reader gives a result, and `q`
    holds of that and of the number of tokens that are then left; or it gives a fault that `F` is to
    blame for. -/
def Accounts {α : Type} (F : Feed) (l : Nat) (p : Parse α) (q : α → Nat → Prop) : Prop :=
  ∀ feed, feed.LeftOf F → feed.items.length ≤ l →
    match p feed with
    | .done a feed' => feed'.LeftOf F ∧ q a feed'.items.length
    | .fault f => F.Blames f
    | .exhausted => False

variable {α β : Type} {F : Feed} {l fuel : Nat} {p : Parse α} {q q' : α → Nat → Prop}

/-! ## Closure -/

namespace Accounts

theorem mono (h : Accounts F l p q) (hq : ∀ a m, q a m → q' a m) : Accounts F l p q' := by
  intro feed hleft hlength
  have hp := h feed hleft hlength
  cases hreply : p feed with
  | done a feed' => rw [hreply] at hp; exact ⟨hp.1, hq _ _ hp.2⟩
  | fault f => rw [hreply] at hp; exact hp
  | exhausted => rw [hreply] at hp; exact hp

theorem bind {f : α → Parse β} {r : β → Nat → Prop} (hp : Accounts F l p q)
    (hf : ∀ a m, q a m → Accounts F m (f a) r) : Accounts F l (p >>= f) r := by
  intro feed hleft hlength
  have hfirst := hp feed hleft hlength
  rw [bind_apply]
  cases hreply : p feed with
  | done a feed' =>
    rw [hreply] at hfirst
    exact hf a _ hfirst.2 feed' hfirst.1 (Nat.le_refl _)
  | fault f => rw [hreply] at hfirst; exact hfirst
  | exhausted => rw [hreply] at hfirst; exact hfirst

theorem pure {a : α} (h : ∀ m, m ≤ l → q a m) : Accounts F l (Pure.pure a) q :=
  fun _ hleft hlength => ⟨hleft, h _ hlength⟩

theorem ite {c : Prop} [Decidable c] {p' : Parse α} (hp : c → Accounts F l p q)
    (hp' : ¬ c → Accounts F l p' q) : Accounts F l (if c then p else p') q := by
  split
  · next hc => exact hp hc
  · next hc => exact hp' hc

theorem refuse {complaint : Complaint} {t : Token} (ht : F.Has t) (h : complaint.About t) :
    Accounts F l (Parse.refuse complaint t.span) q :=
  fun _ _ _ => .inr ⟨t, ht, rfl, h⟩

theorem unexpected {t : Token} (ht : F.Has t) (expected : String) :
    Accounts F l (Parse.unexpected t expected) q := refuse ht rfl

end Accounts

/-! ## Single tokens -/

theorem accounts_lastSpan : Accounts F l lastSpan fun _ m => m ≤ l :=
  fun _ hleft hlength => ⟨hleft, hlength⟩

/-- A result that takes its span from the last token. -/
theorem accounts_spanned {f : Span → β} {r : β → Nat → Prop} (h : ∀ s m, m ≤ l → r (f s) m) :
    Accounts F l (do return f (← lastSpan)) r :=
  accounts_lastSpan.bind fun s _ hm => .pure fun _ hle => h s _ (Nat.le_trans hle hm)

section Regular

variable (hF : F.Regular)
include hF

/-- One token fewer is left, if the token is not the end of the text. -/
theorem accounts_advance :
    Accounts F l advance fun t m => F.Has t ∧ m ≤ l - 1 ∧ (t.kind ≠ .eof → m + 1 ≤ l) := by
  intro feed hleft hlength
  unfold advance
  cases hitems : feed.items with
  | cons t rest =>
    rw [hitems, List.length_cons] at hlength
    have hin : t ∈ F.items := hleft.items.mem (by rw [hitems]; exact List.mem_cons_self)
    have hrest : rest <:+ F.items :=
      ((List.suffix_cons t rest).trans (hitems ▸ List.suffix_rfl)).trans hleft.items
    exact ⟨⟨hrest, hleft.stop⟩, .inl hin, Nat.le_sub_one_of_lt hlength, fun _ => hlength⟩
  | nil =>
    have hstop := hleft.stop
    cases hend : feed.stop with
    | error f => exact .inl (hstop.symm.trans hend)
    | ok t =>
      have ht := hstop.symm.trans hend
      exact ⟨⟨List.nil_suffix, ht.symm⟩, .inr ht, Nat.zero_le _,
        fun hne => absurd (hF.stop t ht) hne⟩

/-- There is a token left, if the next one is not the end of the text. -/
theorem accounts_peek :
    Accounts F l peek fun t m => F.Has t ∧ m ≤ l ∧ (t.kind ≠ .eof → 1 ≤ m) := by
  intro feed hleft hlength
  unfold peek
  cases hitems : feed.items with
  | cons t rest =>
    have hin : t ∈ F.items := hleft.items.mem (by rw [hitems]; exact List.mem_cons_self)
    refine ⟨hleft, .inl hin, hlength, fun _ => ?_⟩
    rw [hitems]
    exact Nat.le_add_left 1 rest.length
  | nil =>
    have hstop := hleft.stop
    cases hend : feed.stop with
    | error f => exact .inl (hstop.symm.trans hend)
    | ok t =>
      have ht := hstop.symm.trans hend
      exact ⟨hleft, .inr ht, hlength, fun hne => absurd (hF.stop t ht) hne⟩

theorem accounts_eat {kind : Kind} (hkind : kind ≠ .eof) :
    Accounts F l (eat kind) fun taken m => m ≤ l ∧ (taken = true → m + 1 ≤ l) := by
  refine (accounts_peek hF).bind fun t m ⟨_, hm, hsome⟩ => .ite (fun hk => ?_) fun _ => ?_
  · have hm₁ := hsome (hk ▸ hkind)
    refine (accounts_advance hF).bind fun _ m' ⟨_, hm', _⟩ => .pure fun _ hle => ?_
    exact ⟨by omega, fun _ => by omega⟩
  · exact .pure fun _ hle => ⟨Nat.le_trans hle hm, nofun⟩

theorem accounts_expect {kind : Kind} (hkind : kind ≠ .eof) :
    Accounts F l (expect kind) fun t m => F.Has t ∧ t.kind = kind ∧ m + 1 ≤ l := by
  refine (accounts_advance hF).bind fun t m ⟨ht, _, hsome⟩ => .ite (fun hk => ?_) fun _ => ?_
  · have hm := hsome (hk ▸ hkind)
    exact .pure fun _ hle => ⟨ht, hk, by omega⟩
  · exact .unexpected ht _

theorem accounts_expectName : Accounts F l expectName fun _ m => m + 1 ≤ l := by
  refine (accounts_advance hF).bind fun t m ⟨ht, _, hsome⟩ => .ite (fun hk => ?_) fun _ => ?_
  · have hm := hsome (by rw [hk]; nofun)
    exact .pure fun _ hle => by omega
  · exact .unexpected ht _

theorem accounts_rejectDot (qualified : String) :
    Accounts F l (rejectDot qualified) fun _ m => m ≤ l := by
  refine (accounts_peek hF).bind fun t m ⟨ht, hm, _⟩ => .ite (fun hk => ?_) fun _ => ?_
  · exact .refuse ht hk
  · exact .pure fun _ hle => Nat.le_trans hle hm

omit hF in
theorem accounts_numeral {t : Token} (ht : F.Has t) (hk : t.kind = .number) (negative : Bool) :
    Accounts F l (numeral t negative) fun _ m => m ≤ l := by
  have htooLarge : Accounts F l (numeral.tooLarge t) fun _ m => m ≤ l := .refuse ht ⟨hk, rfl⟩
  exact .ite (fun _ => .ite (fun _ => .pure fun _ hle => hle) fun _ => htooLarge)
    fun _ => .ite (fun _ => .pure fun _ hle => hle) fun _ => htooLarge

/-! ## Variables and expressions -/

theorem accounts_tierVariable (tier : Tier) :
    Accounts F l (tierVariable tier) fun _ m => m ≤ l := by
  refine (accounts_eat hF (by nofun)).bind fun _ m ⟨hm, _⟩ => ?_
  refine (accounts_expectName hF).bind fun _ m' hm' => ?_
  exact (accounts_rejectDot hF _).bind fun _ _ _ => .pure fun _ _ => by omega

theorem accounts_variableFrom {t : Token} (ht : F.Has t) :
    Accounts F l (variableFrom t) fun _ m => m ≤ l := by
  unfold variableFrom
  split
  · exact accounts_tierVariable hF _
  · refine (accounts_peek hF).bind fun u m ⟨hu, hm, _⟩ => .ite (fun hk => ?_) fun _ => ?_
    · exact .refuse hu hk
    · exact .pure fun _ hle => Nat.le_trans hle hm
  · exact .unexpected ht _

/-- The rules for expressions, with the given fuel. An operand other than the end of the text needs
    most, because its first token is already taken. -/
structure ExprAccounts (F : Feed) (fuel : Nat) : Prop where
  expression : ∀ l, 4 * l + 3 ≤ fuel → Accounts F l (expression fuel) fun _ m => m + 1 ≤ l
  operands : ∀ l, 4 * l + 1 ≤ fuel → Accounts F l (operands fuel) fun _ m => m ≤ l
  term : ∀ l, 4 * l + 2 ≤ fuel → Accounts F l (term fuel) fun _ m => m + 1 ≤ l
  operand : ∀ l t, F.Has t → 1 ≤ fuel → (t.kind ≠ .eof → 4 * l + 4 ≤ fuel) →
    Accounts F l (operand fuel t) fun _ m => m ≤ l ∧ t.kind ≠ .eof

section Step

variable {n : Nat} (ih : ExprAccounts F n)
include ih

omit hF in
theorem accounts_expression (hfuel : 4 * l + 3 ≤ n + 1) :
    Accounts F l (expression (n + 1)) fun _ m => m + 1 ≤ l := by
  refine (ih.term l (by omega)).bind fun _ m hm => ?_
  refine (ih.operands m (by omega)).bind fun _ m' hm' => ?_
  exact accounts_spanned fun _ _ _ => by omega

omit hF in
/-- An operand and what follows it, behind their operator. -/
theorem accounts_moreOperands (hfuel : 4 * l + 2 ≤ n) (f : Term → ArithOp × Term) :
    Accounts F l (do
      let operand ← term n
      let rest ← operands n
      return f operand :: rest) fun _ m => m ≤ l := by
  refine (ih.term l hfuel).bind fun _ m hm => ?_
  refine (ih.operands m (by omega)).bind fun _ m' hm' => ?_
  exact .pure fun _ _ => by omega

theorem accounts_operands (hfuel : 4 * l + 1 ≤ n + 1) :
    Accounts F l (operands (n + 1)) fun _ m => m ≤ l := by
  refine (accounts_peek hF).bind fun t m ⟨ht, hm, hsome⟩ => .ite (fun hk => ?_) fun _ => ?_
  · have hm₁ := hsome (by rw [hk]; nofun)
    refine (accounts_advance hF).bind fun _ m₂ ⟨_, hm₂, _⟩ => ?_
    refine (accounts_advance hF).bind fun o m₃ ⟨ho, hm₃, _⟩ => ?_
    split
    · exact (accounts_moreOperands ih (by omega) _).mono fun _ _ _ => by omega
    · exact .unexpected ho _
  · split
    · next hop =>
      have hm₁ := hsome (by rintro heof; rw [heof] at hop; cases hop)
      refine (accounts_advance hF).bind fun _ m₂ ⟨_, hm₂, _⟩ => ?_
      exact (accounts_moreOperands ih (by omega) _).mono fun _ _ _ => by omega
    · exact .pure fun _ _ => by omega

theorem accounts_term (hfuel : 4 * l + 2 ≤ n + 1) :
    Accounts F l (term (n + 1)) fun _ m => m + 1 ≤ l := by
  refine (accounts_advance hF).bind fun t m ⟨ht, hm, hsome⟩ => .ite (fun hk => ?_) fun _ => ?_
  · have hm₁ := hsome (by rw [hk]; nofun)
    refine (accounts_advance hF).bind fun u m₂ ⟨hu, hm₂, _⟩ => ?_
    refine (ih.operand m₂ u hu (by omega) fun _ => by omega).bind fun _ m₃ ⟨hm₃, _⟩ => ?_
    exact accounts_spanned fun _ _ _ => by omega
  · refine (ih.operand m t ht (by omega) fun hne => ?_).bind fun _ m₂ ⟨hm₂, hne⟩ => ?_
    · have := hsome hne
      omega
    · have := hsome hne
      exact accounts_spanned fun _ _ _ => by omega

theorem accounts_operand {t : Token} (ht : F.Has t) (hfuel : t.kind ≠ .eof → 4 * l + 4 ≤ n + 1) :
    Accounts F l (operand (n + 1) t) fun _ m => m ≤ l ∧ t.kind ≠ .eof := by
  unfold Parse.operand
  split
  · next hk =>
    have hne : t.kind ≠ .eof := by rw [hk]; nofun
    have := hfuel hne
    refine (ih.expression l (by omega)).bind fun _ m hm => ?_
    refine (accounts_expect hF (by nofun)).bind fun _ m' ⟨_, _, hm'⟩ => ?_
    exact .pure fun _ _ => ⟨by omega, hne⟩
  · next hk =>
    exact (accounts_numeral ht hk false).bind fun _ m hm =>
      .pure fun _ _ => ⟨by omega, by rw [hk]; nofun⟩
  iterate 4 next hk => exact .pure fun _ hle => ⟨hle, by rw [hk]; nofun⟩
  iterate 2
    next hk =>
      exact (accounts_variableFrom hF ht).bind fun _ m hm =>
        .pure fun _ _ => ⟨by omega, by rw [hk]; nofun⟩
  · next hk =>
    have hne : t.kind ≠ .eof := by rw [hk]; nofun
    refine (accounts_advance hF).bind fun u m ⟨hu, hm, _⟩ => ?_
    split
    · next hnumber =>
      exact (accounts_numeral hu hnumber true).bind fun _ _ _ =>
        .pure fun _ _ => ⟨by omega, hne⟩
    · exact (accounts_variableFrom hF hu).bind fun _ _ _ => .pure fun _ _ => ⟨by omega, hne⟩
    · exact (accounts_variableFrom hF hu).bind fun _ _ _ => .pure fun _ _ => ⟨by omega, hne⟩
    · exact .unexpected hu _
  · exact .unexpected ht _

end Step

theorem exprAccounts (n : Nat) : ExprAccounts F n := by
  induction n with
  | zero => constructor <;> intros <;> omega
  | succ n ih =>
    exact {
      expression := fun _ => accounts_expression ih
      operands := fun _ => accounts_operands hF ih
      term := fun _ => accounts_term hF ih
      operand := fun _ _ ht _ => accounts_operand hF ih ht }

/-! ## Conditions, calls and parameters -/

theorem accounts_condition (hfuel : 4 * l + 3 ≤ fuel) :
    Accounts F l (condition fuel) fun _ m => m + 1 ≤ l := by
  refine ((exprAccounts hF fuel).expression l hfuel).bind fun _ m hm => ?_
  refine (accounts_peek hF).bind fun t m₁ ⟨_, hm₁, _⟩ => ?_
  split
  · refine (accounts_advance hF).bind fun _ m₂ ⟨_, hm₂, _⟩ => ?_
    refine ((exprAccounts hF fuel).expression m₂ (by omega)).bind fun _ m₃ hm₃ => ?_
    exact accounts_spanned fun _ _ _ => by omega
  · exact accounts_spanned fun _ _ _ => by omega

theorem accounts_conditionsRest (hfuel : 4 * l + 1 ≤ fuel) :
    Accounts F l (conditionsRest fuel) fun _ m => m ≤ l := by
  induction fuel generalizing l with
  | zero => omega
  | succ fuel ih =>
    refine (accounts_peek hF).bind fun t m ⟨_, hm, hsome⟩ => ?_
    split
    · next hop =>
      have hm₁ := hsome (by rintro heof; rw [heof] at hop; cases hop)
      refine (accounts_advance hF).bind fun _ m₂ ⟨_, hm₂, _⟩ => ?_
      refine (accounts_condition hF (by omega)).bind fun _ m₃ hm₃ => ?_
      exact (ih (by omega)).bind fun _ _ _ => .pure fun _ _ => by omega
    · exact .pure fun _ _ => by omega

theorem accounts_conditions (hfuel : 4 * l + 3 ≤ fuel) :
    Accounts F l (conditions fuel) fun _ m => m + 1 ≤ l := by
  refine (accounts_condition hF hfuel).bind fun _ m hm => ?_
  refine (accounts_conditionsRest hF (by omega)).bind fun _ m' hm' => ?_
  exact accounts_spanned fun _ _ _ => by omega

theorem accounts_argumentsRest (hfuel : 4 * l + 4 ≤ fuel) :
    Accounts F l (argumentsRest fuel) fun _ m => m ≤ l := by
  induction fuel generalizing l with
  | zero => omega
  | succ fuel ih =>
    refine ((exprAccounts hF fuel).expression l (by omega)).bind fun _ m hm => ?_
    refine (accounts_advance hF).bind fun t m₁ ⟨ht, hm₁, _⟩ => ?_
    split
    · exact (ih (by omega)).bind fun _ _ _ => .pure fun _ _ => by omega
    · exact .pure fun _ _ => by omega
    · exact .unexpected ht _

theorem accounts_arguments (hfuel : 4 * l + 4 ≤ fuel) :
    Accounts F l (arguments fuel) fun _ m => m ≤ l := by
  refine (accounts_eat hF (by nofun)).bind fun _ m ⟨hm, _⟩ => .ite (fun _ => ?_) fun _ => ?_
  · exact .pure fun _ _ => by omega
  · exact (accounts_argumentsRest hF (by omega)).mono fun _ _ _ => by omega

theorem accounts_moduleCallTail (hfuel : 4 * l ≤ fuel) (module : String) (start : Span) :
    Accounts F l (moduleCallTail fuel module start) fun _ m => m ≤ l := by
  refine (accounts_expectName hF).bind fun _ m hm => ?_
  refine (accounts_rejectDot hF _).bind fun _ m₁ hm₁ => ?_
  refine (accounts_expect hF (by nofun)).bind fun _ m₂ ⟨_, _, hm₂⟩ => ?_
  refine (accounts_arguments hF (by omega)).bind fun _ m₃ hm₃ => ?_
  exact accounts_spanned fun _ _ _ => by omega

theorem accounts_callStmt (hfuel : 4 * l ≤ fuel) :
    Accounts F l (callStmt fuel) fun _ m => m + 1 ≤ l := by
  refine (accounts_expectName hF).bind fun name m hm => ?_
  refine (accounts_advance hF).bind fun t m₁ ⟨ht, hm₁, _⟩ => ?_
  split
  · refine (accounts_arguments hF (by omega)).bind fun _ m₂ hm₂ => ?_
    exact accounts_spanned fun _ _ _ => by omega
  · exact (accounts_moduleCallTail hF (by omega) _ _).mono fun _ _ _ => by omega
  · exact .unexpected ht _

theorem accounts_parametersRest (hfuel : l + 1 ≤ fuel) :
    Accounts F l (parametersRest fuel) fun _ m => m ≤ l := by
  induction fuel generalizing l with
  | zero => omega
  | succ fuel ih =>
    refine (accounts_eat hF (by nofun)).bind fun _ m ⟨hm, _⟩ => ?_
    refine (accounts_expectName hF).bind fun _ m₁ hm₁ => ?_
    refine (accounts_advance hF).bind fun t m₂ ⟨ht, hm₂, _⟩ => ?_
    split
    · exact (ih (by omega)).bind fun _ _ _ => .pure fun _ _ => by omega
    · exact .pure fun _ _ => by omega
    · exact .unexpected ht _

theorem accounts_parameters (hfuel : l + 1 ≤ fuel) :
    Accounts F l (parameters fuel) fun _ m => m ≤ l := by
  refine (accounts_eat hF (by nofun)).bind fun _ m ⟨hm, _⟩ => .ite (fun _ => ?_) fun _ => ?_
  · exact .pure fun _ _ => by omega
  · exact (accounts_parametersRest hF (by omega)).mono fun _ _ _ => by omega

theorem accounts_assignment (hfuel : 4 * l ≤ fuel) :
    Accounts F l (assignment fuel) fun _ m => m + 1 ≤ l := by
  refine (accounts_advance hF).bind fun t m ⟨ht, hm, hsome⟩ => ?_
  split
  · next hk =>
    have hm₁ := hsome (by rw [hk]; nofun)
    refine (accounts_tierVariable hF _).bind fun _ m₂ hm₂ => ?_
    refine (accounts_expect hF (by nofun)).bind fun _ m₃ ⟨_, _, hm₃⟩ => ?_
    refine ((exprAccounts hF fuel).expression m₃ (by omega)).bind fun _ m₄ hm₄ => ?_
    exact .pure fun _ _ => by omega
  · exact .unexpected ht _

/-! ## Statements and blocks -/

/-- The rules for statements and blocks, with the given fuel. A block in braces knows the brace that
    opened it. -/
structure BlockAccounts (F : Feed) (fuel : Nat) : Prop where
  items : ∀ l enclosure opening, 4 * l + 1 ≤ fuel →
    (enclosure = .braces → ∃ t, F.Has t ∧ t.kind = .openBrace ∧ t.span = opening) →
    Accounts F l (items fuel enclosure opening) fun _ m => m ≤ l
  block : ∀ l enclosure opening, 4 * l + 2 ≤ fuel →
    (enclosure = .braces → ∃ t, F.Has t ∧ t.kind = .openBrace ∧ t.span = opening) →
    Accounts F l (block fuel enclosure opening) fun _ m => m ≤ l
  bracedBlock : ∀ l, 4 * l + 1 ≤ fuel → Accounts F l (bracedBlock fuel) fun _ m => m ≤ l
  ifStmt : ∀ l, 1 ≤ fuel → 4 * l ≤ fuel → Accounts F l (ifStmt fuel) fun _ m => m + 1 ≤ l
  elseBranch : ∀ l, 4 * l + 1 ≤ fuel → Accounts F l (elseBranch fuel) fun _ m => m ≤ l
  whileStmt : ∀ l, 1 ≤ fuel → 4 * l ≤ fuel → Accounts F l (whileStmt fuel) fun _ m => m + 1 ≤ l
  forStmt : ∀ l, 1 ≤ fuel → 4 * l ≤ fuel → Accounts F l (forStmt fuel) fun _ m => m + 1 ≤ l
  fnItem : ∀ l start, 4 * l + 4 ≤ fuel → Accounts F l (fnItem fuel start) fun _ m => m ≤ l

section Step

variable {n : Nat} (ih : BlockAccounts F n)
include ih

section

variable {enclosure : Enclosure} {opening : Span}
  (hopening : enclosure = .braces → ∃ t, F.Has t ∧ t.kind = .openBrace ∧ t.span = opening)
include hopening

omit hF in
/-- The items after an item. -/
theorem BlockAccounts.more (hfuel : 4 * l + 1 ≤ n) (x : Item) :
    Accounts F l (do return x :: (← Parse.items n enclosure opening)) fun _ m => m ≤ l :=
  (ih.items l _ _ hfuel hopening).bind fun _ _ _ => .pure fun _ _ => by omega

theorem accounts_items (hfuel : 4 * l + 1 ≤ n + 1) :
    Accounts F l (items (n + 1) enclosure opening) fun _ m => m ≤ l := by
  refine (accounts_peek hF).bind fun t m ⟨ht, hm, hsome⟩ => ?_
  -- an item that takes a token leaves enough for the items after it
  have hnext {k : Nat} (hk : k + 1 ≤ m) (x : Item) :
      Accounts F k (do return x :: (← Parse.items n enclosure opening)) fun _ j => j ≤ l :=
    (ih.more hopening (by omega) x).mono fun _ _ _ => by omega
  split
  · next hk =>
    have := hsome (by rw [hk]; nofun)
    refine (accounts_advance hF).bind fun _ m₁ ⟨_, hm₁, _⟩ => ?_
    refine (ih.block m₁ _ _ (by omega) fun _ => ⟨t, ht, hk, rfl⟩).bind fun _ m₂ hm₂ => ?_
    exact hnext (by omega) _
  · next hk =>
    refine .ite (fun _ => ?_) fun _ => .refuse ht hk
    exact (accounts_advance hF).bind fun _ m₁ ⟨_, hm₁, _⟩ => .pure fun _ _ => by omega
  · exact (accounts_assignment hF (by omega)).bind fun _ _ hm₁ => hnext hm₁ _
  · exact (accounts_callStmt hF (by omega)).bind fun _ _ hm₁ => hnext hm₁ _
  · next hk =>
    have := hsome (by rw [hk]; nofun)
    exact (ih.ifStmt m (by omega) (by omega)).bind fun _ _ hm₁ => hnext hm₁ _
  · next hk =>
    have := hsome (by rw [hk]; nofun)
    exact (ih.whileStmt m (by omega) (by omega)).bind fun _ _ hm₁ => hnext hm₁ _
  · next hk =>
    have := hsome (by rw [hk]; nofun)
    exact (ih.forStmt m (by omega) (by omega)).bind fun _ _ hm₁ => hnext hm₁ _
  · next hk =>
    have := hsome (by rw [hk]; nofun)
    exact (accounts_advance hF).bind fun _ m₁ ⟨_, hm₁, _⟩ => hnext (by omega) _
  · next hk =>
    have := hsome (by rw [hk]; nofun)
    exact (accounts_advance hF).bind fun _ m₁ ⟨_, hm₁, _⟩ => hnext (by omega) _
  · next hk =>
    have := hsome (by rw [hk]; nofun)
    refine (accounts_advance hF).bind fun _ m₁ ⟨_, hm₁, _⟩ => ?_
    exact (ih.fnItem m₁ _ (by omega)).bind fun _ _ _ => hnext (by omega) _
  · next hk =>
    have := hsome (by rw [hk]; nofun)
    refine (accounts_advance hF).bind fun _ m₁ ⟨_, hm₁, _⟩ => ?_
    exact (ih.items m₁ _ _ (by omega) hopening).mono fun _ _ _ => by omega
  · refine .ite (fun henclosure => ?_) fun _ => .pure fun _ _ => by omega
    obtain ⟨brace, hbrace, hk, rfl⟩ := hopening henclosure
    exact .refuse hbrace hk
  · next hk => exact .ite (fun _ => .pure fun _ _ => by omega) fun _ => .refuse ht hk
  · exact .unexpected ht _

omit hF in
theorem accounts_block (hfuel : 4 * l + 2 ≤ n + 1) :
    Accounts F l (block (n + 1) enclosure opening) fun _ m => m ≤ l :=
  (ih.items l _ _ (by omega) hopening).bind fun _ _ _ => accounts_spanned fun _ _ _ => by omega

end

theorem accounts_bracedBlock (hfuel : 4 * l + 1 ≤ n + 1) :
    Accounts F l (bracedBlock (n + 1)) fun _ m => m ≤ l := by
  refine (accounts_expect hF (by nofun)).bind fun t m ⟨ht, hk, hm⟩ => ?_
  exact (ih.block m _ _ (by omega) fun _ => ⟨t, ht, hk, rfl⟩).mono fun _ _ _ => by omega

theorem accounts_ifStmt (hfuel : 4 * l ≤ n + 1) :
    Accounts F l (ifStmt (n + 1)) fun _ m => m + 1 ≤ l := by
  refine (accounts_expect hF (by nofun)).bind fun _ m ⟨_, _, hm⟩ => ?_
  refine (accounts_expect hF (by nofun)).bind fun _ m₁ ⟨_, _, hm₁⟩ => ?_
  refine (accounts_conditions hF (by omega)).bind fun _ m₂ hm₂ => ?_
  refine (accounts_expect hF (by nofun)).bind fun _ m₃ ⟨_, _, hm₃⟩ => ?_
  refine (ih.bracedBlock m₃ (by omega)).bind fun _ m₄ hm₄ => ?_
  refine (ih.elseBranch m₄ (by omega)).bind fun _ m₅ hm₅ => ?_
  exact accounts_spanned (f := fun s => (Stmt.ifElse _ _ _ _, _)) fun _ _ _ => by omega

theorem accounts_elseBranch (hfuel : 4 * l + 1 ≤ n + 1) :
    Accounts F l (elseBranch (n + 1)) fun _ m => m ≤ l := by
  refine (accounts_eat hF (by nofun)).bind fun _ m ⟨hm, htaken⟩ => .ite (fun h => ?_) fun _ => ?_
  · have := htaken h
    refine (accounts_peek hF).bind fun t m₁ ⟨ht, hm₁, _⟩ => ?_
    split
    · exact (ih.ifStmt m₁ (by omega) (by omega)).bind fun _ _ _ => .pure fun _ _ => by omega
    · exact (ih.bracedBlock m₁ (by omega)).bind fun _ _ _ => .pure fun _ _ => by omega
    · exact .unexpected ht _
  · exact .pure fun _ _ => by omega

theorem accounts_whileStmt (hfuel : 4 * l ≤ n + 1) :
    Accounts F l (whileStmt (n + 1)) fun _ m => m + 1 ≤ l := by
  refine (accounts_expect hF (by nofun)).bind fun _ m ⟨_, _, hm⟩ => ?_
  refine (accounts_expect hF (by nofun)).bind fun _ m₁ ⟨_, _, hm₁⟩ => ?_
  refine (accounts_conditions hF (by omega)).bind fun _ m₂ hm₂ => ?_
  refine (accounts_expect hF (by nofun)).bind fun _ m₃ ⟨_, _, hm₃⟩ => ?_
  refine (ih.bracedBlock m₃ (by omega)).bind fun _ m₄ hm₄ => ?_
  exact accounts_spanned fun _ _ _ => by omega

theorem accounts_forStmt (hfuel : 4 * l ≤ n + 1) :
    Accounts F l (forStmt (n + 1)) fun _ m => m + 1 ≤ l := by
  have hexpr := exprAccounts hF n
  refine (accounts_expect hF (by nofun)).bind fun _ m ⟨_, _, hm⟩ => ?_
  refine (accounts_expect hF (by nofun)).bind fun _ m₁ ⟨_, _, hm₁⟩ => ?_
  refine (hexpr.term m₁ (by omega)).bind fun _ m₂ hm₂ => ?_
  refine (accounts_expect hF (by nofun)).bind fun _ m₃ ⟨_, _, hm₃⟩ => ?_
  refine (hexpr.term m₃ (by omega)).bind fun _ m₄ hm₄ => ?_
  refine (accounts_expect hF (by nofun)).bind fun _ m₅ ⟨_, _, hm₅⟩ => ?_
  refine (ih.bracedBlock m₅ (by omega)).bind fun _ m₆ hm₆ => ?_
  exact accounts_spanned fun _ _ _ => by omega

theorem accounts_fnItem (hfuel : 4 * l + 4 ≤ n + 1) (start : Span) :
    Accounts F l (fnItem (n + 1) start) fun _ m => m ≤ l := by
  refine (accounts_expectName hF).bind fun name m hm => ?_
  refine (accounts_advance hF).bind fun t m₁ ⟨ht, hm₁, _⟩ => ?_
  split
  · exact (accounts_moduleCallTail hF (by omega) _ _).bind fun _ _ _ => .pure fun _ _ => by omega
  · refine (accounts_parameters hF (by omega)).bind fun _ m₂ hm₂ => ?_
    refine (ih.block m₂ .function start (by omega) nofun).bind fun _ m₃ hm₃ => ?_
    refine (accounts_advance hF).bind fun e m₄ ⟨he, hm₄, _⟩ => .ite (fun _ => ?_) fun _ => ?_
    · refine (accounts_eat hF (by nofun)).bind fun _ m₅ ⟨hm₅, _⟩ => ?_
      exact accounts_spanned fun _ _ _ => by omega
    · exact .refuse he rfl
  · exact .unexpected ht _

end Step

theorem blockAccounts (n : Nat) : BlockAccounts F n := by
  induction n with
  | zero => constructor <;> intros <;> omega
  | succ n ih =>
    exact {
      items := fun _ _ _ hfuel hopening => accounts_items hF ih hopening hfuel
      block := fun _ _ _ hfuel hopening => accounts_block ih hopening hfuel
      bracedBlock := fun _ => accounts_bracedBlock hF ih
      ifStmt := fun _ _ => accounts_ifStmt hF ih
      elseBranch := fun _ => accounts_elseBranch hF ih
      whileStmt := fun _ _ => accounts_whileStmt hF ih
      forStmt := fun _ _ => accounts_forStmt hF ih
      fnItem := fun _ start hfuel => accounts_fnItem hF ih hfuel start }

end Regular

end Parse

/-! ## Whole texts -/

theorem Feed.regular_ofText (text : List Char) : (Feed.ofText text).Regular := by
  cases h : tokenize text with
  | ok ts =>
    obtain ⟨us, e, -, he, hus, hfeed⟩ := Feed.ofText_of_lexes (Reader.lexes_of_tokenize h)
    rw [hfeed]
    exact ⟨hus, by rintro _ ⟨⟩; exact he⟩
  | error f =>
    have hfaulty := Feed.faulty_of_tokenize h
    obtain ⟨g, hstop⟩ := hfaulty.stop
    exact ⟨hfaulty.items, fun t ht => by rw [hstop] at ht; cases ht⟩

/-- A text gives a program, or a fault that is the reader's or is about one of its tokens. The fuel
    is always enough. -/
theorem parseText_blames (text : List Char) :
    (∃ b feed, parseText text = .done b feed) ∨
      ∃ f, parseText text = .fault f ∧ (Feed.ofText text).Blames f := by
  have hregular := Feed.regular_ofText text
  have hblock := (blockAccounts hregular (fuelFor (Feed.ofText text).items.length)).block
    (Feed.ofText text).items.length .program .first (by unfold fuelFor; omega) nofun
    (Feed.ofText text) ⟨List.suffix_rfl, rfl⟩ (Nat.le_refl _)
  unfold parseText
  dsimp only
  split at hblock
  · next b feed hreply => exact .inl ⟨b, feed, hreply⟩
  · next f hreply => exact .inr ⟨f, hreply, hblock⟩
  · exact hblock.elim

end TierScript
