import TierScript.Proofs.Program.Blame
import TierScript.Proofs.Program.Loops

/-!
# Fuel

The rules of the grammar are recursive in an amount of fuel, which has nothing to do with the text.
Here it drops out again: what a rule gives with some fuel it also gives with more, and an amount
that is linear in the number of tokens is always enough.

* `Parse.Extends p p'`: wherever `p` does not run out of fuel, `p'` does the same.
* `Parse.extends_rounds`: a loop with more fuel extends the loop if its rounds do.
* `Parse.exprExtends`, `Parse.blockExtends`: a rule with more fuel extends the rule.
* `block_eq_parseText`: any enough fuel gives the same program or fault.
-/

namespace TierScript

open Parse

namespace Parse

/-- Wherever the first reader does not run out of fuel, the second one does the same. -/
def Extends {α : Type} (p p' : Parse α) : Prop := ∀ feed, p feed ≠ .exhausted → p' feed = p feed

variable {α β : Type} {p p' : Parse α} {n m : Nat}

/-! ## Closure -/

namespace Extends

theorem refl (p : Parse α) : Extends p p := fun _ _ => rfl

theorem exhausted (p : Parse α) : Extends Parse.exhausted p := fun _ h => absurd rfl h

theorem bind {f f' : α → Parse β} (hp : Extends p p') (hf : ∀ a, Extends (f a) (f' a)) :
    Extends (p >>= f) (p' >>= f') := by
  intro feed hne
  rw [bind_apply] at hne
  have hfirst : p' feed = p feed := hp feed fun h => hne (by rw [h])
  rw [bind_apply, bind_apply, hfirst]
  cases hreply : p feed with
  | done a feed' =>
    rw [hreply] at hne
    exact hf a feed' hne
  | fault f => rfl
  | exhausted => rfl

/-- The two go on differently after the same start. -/
theorem after (p : Parse α) {f f' : α → Parse β} (hf : ∀ a, Extends (f a) (f' a)) :
    Extends (p >>= f) (p >>= f') := (refl p).bind hf

/-- The two go on alike. -/
theorem andThen (hp : Extends p p') (f : α → Parse β) : Extends (p >>= f) (p' >>= f) :=
  hp.bind fun a => refl (f a)

theorem ite {c : Prop} [Decidable c] {q q' : Parse α} (hp : Extends p p') (hq : Extends q q') :
    Extends (if c then p else q) (if c then p' else q') := by
  split
  · exact hp
  · exact hq

theorem done {feed feed' : Feed} {a : α} (h : Extends p p') (hp : p feed = .done a feed') :
    p' feed = .done a feed' := (h feed (by rw [hp]; nofun)).trans hp

/-- A loop that begins with a round extends another one if the round and the rest do. -/
theorem unroll {rest rest' q q' : Parse (List α)} {round round' : Parse (Round α)}
    (hround : Extends round round') (hrest : Extends rest rest') (hq : Unrolls rest q round)
    (hq' : Unrolls rest' q' round') : Extends q q' := by
  rw [hq, hq']
  refine hround.bind fun r => ?_
  cases r with
  | more found => exact hrest.andThen _
  | last found => exact refl _

end Extends

theorem exists_eq_succ (h : n + 1 ≤ m) : ∃ m', m = m' + 1 ∧ n ≤ m' := by
  cases m with
  | zero => omega
  | succ m' => exact ⟨m', rfl, Nat.le_of_succ_le_succ h⟩

theorem extends_rounds {round : Nat → Parse (Round α)}
    (hround : ∀ {n m}, n ≤ m → Extends (round n) (round m)) (h : n ≤ m) :
    Extends (rounds round n) (rounds round m) := by
  induction n generalizing m with
  | zero => exact .exhausted _
  | succ n ih =>
    obtain ⟨m, rfl, hle⟩ := exists_eq_succ h
    exact (hround hle).unroll (ih hle) rfl rfl

/-! ## Expressions -/

theorem extends_operandRound (hterm : Extends (term n) (term m)) :
    Extends (operandRound n) (operandRound m) := by
  refine .after peek fun t => .ite ?_ ?_
  · refine .after advance fun _ => .after advance fun o => ?_
    split
    · exact hterm.andThen _
    · exact .refl _
  · split
    · exact .after advance fun _ => hterm.andThen _
    · exact .refl _

/-- The rules for expressions with the second amount of fuel extend those with the first one. -/
structure ExprExtends (n m : Nat) : Prop where
  expression : Extends (expression n) (expression m)
  operands : Extends (operands n) (operands m)
  term : Extends (term n) (term m)
  operand : ∀ t, Extends (operand n t) (operand m t)

namespace ExprExtends

variable (h : ExprExtends n m)
include h

theorem expression_succ : Extends (Parse.expression (n + 1)) (Parse.expression (m + 1)) :=
  h.term.bind fun _ => h.operands.andThen _

theorem operands_succ : Extends (Parse.operands (n + 1)) (Parse.operands (m + 1)) :=
  (extends_operandRound h.term).unroll h.operands (unrolls_operands n) (unrolls_operands m)

theorem term_succ : Extends (Parse.term (n + 1)) (Parse.term (m + 1)) :=
  .after advance fun t => .ite (.after advance fun w => (h.operand w).andThen _)
    ((h.operand t).andThen _)

theorem operand_succ (t : Token) : Extends (Parse.operand (n + 1) t) (Parse.operand (m + 1) t) := by
  unfold Parse.operand
  split
  · exact h.expression.andThen _
  all_goals exact .refl _

end ExprExtends

theorem exprExtends (h : n ≤ m) : ExprExtends n m := by
  induction n generalizing m with
  | zero => exact ⟨.exhausted _, .exhausted _, .exhausted _, fun _ => .exhausted _⟩
  | succ n ih =>
    obtain ⟨m, rfl, hle⟩ := exists_eq_succ h
    have hless := ih hle
    exact ⟨hless.expression_succ, hless.operands_succ, hless.term_succ, hless.operand_succ⟩

/-! ## Conditions, calls and parameters -/

section

variable (h : n ≤ m)
include h

theorem extends_condition : Extends (condition n) (condition m) := by
  have hexpr := (exprExtends h).expression
  refine hexpr.bind fun _ => .after peek fun t => ?_
  split
  · exact .after advance fun _ => hexpr.andThen _
  · exact .refl _

theorem extends_conditionRound : Extends (conditionRound n) (conditionRound m) := by
  refine .after peek fun t => ?_
  split
  · exact .after advance fun _ => (extends_condition h).andThen _
  · exact .refl _

theorem extends_conditionsRest : Extends (conditionsRest n) (conditionsRest m) := by
  rw [conditionsRest_eq_rounds]
  exact extends_rounds extends_conditionRound h

theorem extends_conditions : Extends (conditions n) (conditions m) :=
  (extends_condition h).bind fun _ => (extends_conditionsRest h).andThen _

theorem extends_argumentRound : Extends (argumentRound n) (argumentRound m) :=
  (exprExtends h).expression.andThen _

theorem extends_argumentsRest : Extends (argumentsRest n) (argumentsRest m) := by
  rw [argumentsRest_eq_rounds]
  exact extends_rounds extends_argumentRound h

theorem extends_arguments : Extends (arguments n) (arguments m) :=
  .after (eat .closeParen) fun _ => .ite (.refl _) (extends_argumentsRest h)

theorem extends_moduleCallTail (module : String) (start : Span) :
    Extends (moduleCallTail n module start) (moduleCallTail m module start) :=
  .after expectName fun _ => .after (rejectDot _) fun _ => .after (expect .openParen) fun _ =>
    (extends_arguments h).andThen _

theorem extends_callStmt : Extends (callStmt n) (callStmt m) := by
  refine .after expectName fun _ => .after advance fun t => ?_
  split
  · exact (extends_arguments h).andThen _
  · exact extends_moduleCallTail h _ _
  · exact .refl _

theorem extends_parametersRest : Extends (parametersRest n) (parametersRest m) := by
  rw [parametersRest_eq_rounds]
  exact extends_rounds (fun _ => .refl _) h

theorem extends_parameters : Extends (parameters n) (parameters m) :=
  .after (eat .closeParen) fun _ => .ite (.refl _) (extends_parametersRest h)

theorem extends_assignment : Extends (assignment n) (assignment m) := by
  refine .after advance fun t => ?_
  split
  · exact .after (tierVariable _) fun _ => .after (expect .eq) fun _ =>
      (exprExtends h).expression.andThen _
  · exact .refl _

end

/-! ## Statements and blocks -/

/-- The rules for statements and blocks with the second amount of fuel extend those with the first
    one. -/
structure BlockExtends (n m : Nat) : Prop where
  items : ∀ enclosure opening, Extends (items n enclosure opening) (items m enclosure opening)
  block : ∀ enclosure opening, Extends (block n enclosure opening) (block m enclosure opening)
  bracedBlock : Extends (bracedBlock n) (bracedBlock m)
  ifStmt : Extends (ifStmt n) (ifStmt m)
  elseBranch : Extends (elseBranch n) (elseBranch m)
  whileStmt : Extends (whileStmt n) (whileStmt m)
  forStmt : Extends (forStmt n) (forStmt m)
  fnItem : ∀ start, Extends (fnItem n start) (fnItem m start)

namespace BlockExtends

variable (h : BlockExtends n m)
include h

theorem block_succ (enclosure : Enclosure) (opening : Span) :
    Extends (Parse.block (n + 1) enclosure opening) (Parse.block (m + 1) enclosure opening) :=
  (h.items enclosure opening).andThen _

theorem bracedBlock_succ : Extends (Parse.bracedBlock (n + 1)) (Parse.bracedBlock (m + 1)) :=
  .after (expect .openBrace) fun _ => h.block _ _

theorem elseBranch_succ : Extends (Parse.elseBranch (n + 1)) (Parse.elseBranch (m + 1)) := by
  refine .after (eat .elseWord) fun _ => .ite (.after peek fun t => ?_) (.refl _)
  split
  · exact h.ifStmt.andThen _
  · exact h.bracedBlock.andThen _
  · exact .refl _

variable (hle : n ≤ m)
include hle

theorem itemRound (enclosure : Enclosure) (opening : Span) :
    Extends (Parse.itemRound enclosure opening n) (Parse.itemRound enclosure opening m) := by
  refine .after peek fun t => ?_
  split
  · exact .after advance fun _ => (h.block _ _).andThen _
  · exact .refl _
  · exact (extends_assignment hle).andThen _
  · exact (extends_callStmt hle).andThen _
  · exact h.ifStmt.andThen _
  · exact h.whileStmt.andThen _
  · exact h.forStmt.andThen _
  · exact .refl _
  · exact .refl _
  · exact .after advance fun _ => (h.fnItem _).andThen _
  all_goals exact .refl _

theorem items_succ (enclosure : Enclosure) (opening : Span) :
    Extends (Parse.items (n + 1) enclosure opening) (Parse.items (m + 1) enclosure opening) :=
  (h.itemRound hle enclosure opening).unroll (h.items enclosure opening)
    (unrolls_items enclosure opening n) (unrolls_items enclosure opening m)

theorem ifStmt_succ : Extends (Parse.ifStmt (n + 1)) (Parse.ifStmt (m + 1)) :=
  .after (expect .ifWord) fun _ => .after (expect .openParen) fun _ =>
    (extends_conditions hle).bind fun _ => .after (expect .closeParen) fun _ =>
      h.bracedBlock.bind fun _ => h.elseBranch.andThen _

theorem whileStmt_succ : Extends (Parse.whileStmt (n + 1)) (Parse.whileStmt (m + 1)) :=
  .after (expect .whileWord) fun _ => .after (expect .openParen) fun _ =>
    (extends_conditions hle).bind fun _ => .after (expect .closeParen) fun _ =>
      h.bracedBlock.andThen _

theorem forStmt_succ : Extends (Parse.forStmt (n + 1)) (Parse.forStmt (m + 1)) :=
  have hterm := (exprExtends hle).term
  .after (expect .forWord) fun _ => .after (expect .openParen) fun _ =>
    hterm.bind fun _ => .after (expect .semicolon) fun _ =>
      hterm.bind fun _ => .after (expect .closeParen) fun _ => h.bracedBlock.andThen _

theorem fnItem_succ (start : Span) :
    Extends (Parse.fnItem (n + 1) start) (Parse.fnItem (m + 1) start) := by
  refine .after expectName fun _ => .after advance fun t => ?_
  split
  · exact (extends_moduleCallTail hle _ _).andThen _
  · exact (extends_parameters hle).bind fun _ => (h.block _ _).andThen _
  · exact .refl _

end BlockExtends

theorem blockExtends (h : n ≤ m) : BlockExtends n m := by
  induction n generalizing m with
  | zero =>
    exact ⟨fun _ _ => .exhausted _, fun _ _ => .exhausted _, .exhausted _, .exhausted _,
      .exhausted _, .exhausted _, .exhausted _, fun _ => .exhausted _⟩
  | succ n ih =>
    obtain ⟨m, rfl, hle⟩ := exists_eq_succ h
    have hless := ih hle
    exact {
      items := hless.items_succ hle
      block := hless.block_succ
      bracedBlock := hless.bracedBlock_succ
      ifStmt := hless.ifStmt_succ hle
      elseBranch := hless.elseBranch_succ
      whileStmt := hless.whileStmt_succ hle
      forStmt := hless.forStmt_succ hle
      fnItem := hless.fnItem_succ hle }

end Parse

/-! ## Whole texts -/

theorem parseText_ne_exhausted (text : List Char) : parseText text ≠ .exhausted := by
  obtain ⟨b, feed, h⟩ | ⟨f, h, -⟩ := parseText_blames text <;> rw [h] <;> nofun

/-- With any fuel from four times the number of tokens and two on, a text gives the same program or
    the same fault. -/
theorem block_eq_parseText (text : List Char) {fuel : Nat}
    (hfuel : 4 * (Feed.ofText text).items.length + 2 ≤ fuel) :
    block fuel .program .first (Feed.ofText text) = parseText text := by
  have henough := (blockAccounts (Feed.regular_ofText text) fuel).block _ .program .first hfuel
    nofun (Feed.ofText text) ⟨List.suffix_rfl, rfl⟩ (Nat.le_refl _)
  have hends : block fuel .program .first (Feed.ofText text) ≠ .exhausted := by
    intro h
    rw [h] at henough
    exact henough
  rcases Nat.le_total fuel (fuelFor (Feed.ofText text).items.length) with hle | hle
  · exact ((blockExtends hle).block .program .first _ hends).symm
  · exact (blockExtends hle).block .program .first _ (parseText_ne_exhausted text)

end TierScript
