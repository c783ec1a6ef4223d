import TierScript.Proofs.Program.Language
import TierScript.Proofs.Token.Partition

/-!
# Texts that cannot be read

A fault of the reader stops the parser when the token is needed that the fault is in place of. A
program ends with its text and nowhere else, so that token is always needed: a text with such a
fault gives no program, whatever comes before the fault (`tokenize_of_parse`).

* `Feed.Faulty`: a feed that ends with a fault of the reader.
* `Parse.Keeps`: from such a feed a rule of the parser gives a result only if it leaves such a feed.
-/

namespace TierScript

open Parse

/-- The feed ends with a fault, and not with the end of the text. -/
structure Feed.Faulty (feed : Feed) : Prop where
  stop : ∃ f, feed.stop = .error f
  items : ∀ t ∈ feed.items, t.kind ≠ .eof

theorem Feed.Faulty.peek {feed feed' : Feed} (h : feed.Faulty) {t : Token}
    (hpeek : peek feed = .done t feed') : t.kind ≠ .eof := by
  obtain ⟨f, hstop⟩ := h.stop
  unfold Parse.peek at hpeek
  split at hpeek
  · next hitems =>
    cases hpeek
    exact h.items t (by rw [hitems]; exact List.mem_cons_self)
  · rw [hstop] at hpeek
    cases hpeek

namespace Parse

/-- If the reader gives a result for a faulty feed, it leaves a faulty one, and the condition
    holds. -/
def KeepsIf {α : Type} (q : Prop) (p : Parse α) : Prop :=
  ∀ feed a feed', feed.Faulty → p feed = .done a feed' → q ∧ feed'.Faulty

/-- If the reader gives a result for a faulty feed, it leaves a faulty one. -/
def Keeps {α : Type} (p : Parse α) : Prop := KeepsIf True p

variable {α β : Type} {p : Parse α} {f : α → Parse β} {q : Prop}

/-! ## Closure -/

namespace KeepsIf

theorem keeps (h : KeepsIf q p) : Keeps p :=
  fun _ _ _ hfeed hp => ⟨trivial, (h _ _ _ hfeed hp).2⟩

theorem pure (hq : q) (a : α) : KeepsIf q (Pure.pure a : Parse α) := by
  intro feed b feed' hfeed h
  obtain ⟨-, rfl⟩ := pure_eq_done.mp h
  exact ⟨hq, hfeed⟩

theorem bind (hp : Keeps p) (hf : ∀ a, KeepsIf q (f a)) : KeepsIf q (p >>= f) := by
  intro feed b feed' hfeed h
  obtain ⟨a, feed₁, hfirst, hnext⟩ := bind_eq_done.mp h
  exact hf a feed₁ b feed' (hp feed a feed₁ hfeed hfirst).2 hnext

/-- The token that is looked at is not the end of the text. -/
theorem peek {f : Token → Parse β} (hf : ∀ t : Token, t.kind ≠ .eof → KeepsIf q (f t)) :
    KeepsIf q (Parse.peek >>= f) := by
  intro feed b feed' hfeed h
  obtain ⟨t, feed₁, hpeek, hnext⟩ := bind_eq_done.mp h
  have ht := hfeed.peek hpeek
  obtain ⟨rfl, -⟩ := peek_done hpeek
  exact hf t ht _ _ _ hfeed hnext

theorem ite {c : Prop} [Decidable c] {p' : Parse α} (hp : c → KeepsIf q p)
    (hp' : ¬ c → KeepsIf q p') : KeepsIf q (if c then p else p') := by
  split
  · next hc => exact hp hc
  · next hc => exact hp' hc

theorem refuse (complaint : Complaint) (span : Span) :
    KeepsIf q (Parse.refuse complaint span : Parse α) := by
  intro feed a feed' _ h
  cases h

end KeepsIf

theorem Keeps.pure (a : α) : Keeps (pure a : Parse α) := KeepsIf.pure trivial a

theorem Keeps.bind (hp : Keeps p) (hf : ∀ a, Keeps (f a)) : Keeps (p >>= f) := KeepsIf.bind hp hf

theorem Keeps.ite {c : Prop} [Decidable c] {p' : Parse α} (hp : Keeps p) (hp' : Keeps p') :
    Keeps (if c then p else p') := KeepsIf.ite (fun _ => hp) fun _ => hp'

theorem keeps_refuse (complaint : Complaint) (span : Span) :
    Keeps (refuse complaint span : Parse α) := KeepsIf.refuse complaint span

theorem keeps_unexpected (t : Token) (expected : String) :
    Keeps (unexpected t expected : Parse α) := keeps_refuse _ _

theorem keeps_exhausted : Keeps (exhausted : Parse α) := by
  intro feed a feed' _ h
  cases h

theorem keeps_lastSpan : Keeps lastSpan := by
  intro feed s feed' hfeed h
  obtain ⟨-, rfl⟩ := lastSpan_eq_done.mp h
  exact ⟨trivial, hfeed⟩

theorem keeps_peek : Keeps peek := by
  intro feed t feed' hfeed h
  obtain ⟨rfl, -⟩ := peek_done h
  exact ⟨trivial, hfeed⟩

theorem keeps_advance : Keeps advance := by
  intro feed t feed' hfeed h
  obtain ⟨f, hstop⟩ := hfeed.stop
  unfold advance at h
  split at h
  · next hitems =>
    cases h
    refine ⟨trivial, ⟨f, hstop⟩, fun t' ht' => hfeed.items t' ?_⟩
    rw [hitems]
    exact List.mem_cons_of_mem _ ht'
  · rw [hstop] at h
    cases h

theorem keeps_eat (kind : Kind) : Keeps (eat kind) :=
  .bind keeps_peek fun _ => .ite (.bind keeps_advance fun _ => .pure true) (.pure false)

theorem keeps_expect (kind : Kind) : Keeps (expect kind) :=
  .bind keeps_advance fun t => .ite (.pure t) (keeps_unexpected t _)

theorem keeps_expectName : Keeps expectName :=
  .bind keeps_advance fun t => .ite (.pure t) (keeps_unexpected t _)

theorem keeps_rejectDot (qualified : String) : Keeps (rejectDot qualified) :=
  .bind keeps_peek fun t => .ite (keeps_refuse _ t.span) (.pure ())

theorem keeps_numeral (t : Token) (negative : Bool) : Keeps (numeral t negative) :=
  .ite (.ite (.pure _) (keeps_refuse _ _)) (.ite (.pure _) (keeps_refuse _ _))

/-! ## Variables and expressions -/

theorem keeps_tierVariable (tier : Tier) : Keeps (tierVariable tier) :=
  .bind (keeps_eat _) fun _ => .bind keeps_expectName fun _ =>
    .bind (keeps_rejectDot _) fun _ => .pure _

theorem keeps_variableFrom (t : Token) : Keeps (variableFrom t) := by
  unfold variableFrom
  split
  · exact keeps_tierVariable _
  · exact .bind keeps_peek fun _ => .ite (keeps_refuse _ _) (.pure _)
  · exact keeps_unexpected t _

/-- The rules for expressions, with the given fuel. -/
structure ExprKeeps (n : Nat) : Prop where
  expression : Keeps (expression n)
  operands : Keeps (operands n)
  term : Keeps (term n)
  operand : ∀ t, Keeps (operand n t)

theorem exprKeeps (n : Nat) : ExprKeeps n := by
  induction n with
  | zero => exact ⟨keeps_exhausted, keeps_exhausted, keeps_exhausted, fun _ => keeps_exhausted⟩
  | succ n ih =>
    refine ⟨?_, ?_, ?_, fun t => ?_⟩
    · exact .bind ih.term fun _ => .bind ih.operands fun _ => .bind keeps_lastSpan fun _ => .pure _
    · refine .bind keeps_peek fun t => .ite ?_ ?_
      · refine .bind keeps_advance fun _ => .bind keeps_advance fun o => ?_
        split
        · exact .bind ih.term fun _ => .bind ih.operands fun _ => .pure _
        · exact keeps_unexpected o _
      · split
        · refine .bind keeps_advance fun _ => .bind ih.term fun _ => ?_
          exact .bind ih.operands fun _ => .pure _
        · exact .pure _
    · refine .bind keeps_advance fun t => .ite ?_ ?_
      · exact .bind keeps_advance fun u => .bind (ih.operand u) fun _ =>
          .bind keeps_lastSpan fun _ => .pure _
      · exact .bind (ih.operand t) fun _ => .bind keeps_lastSpan fun _ => .pure _
    · unfold Parse.operand
      split
      · exact .bind ih.expression fun _ => .bind (keeps_expect _) fun _ => .pure _
      · exact .bind (keeps_numeral t false) fun _ => .pure _
      · exact .pure _
      · exact .pure _
      · exact .pure _
      · exact .pure _
      · exact .bind (keeps_variableFrom t) fun _ => .pure _
      · exact .bind (keeps_variableFrom t) fun _ => .pure _
      · refine .bind keeps_advance fun u => ?_
        split
        · exact .bind (keeps_numeral u true) fun _ => .pure _
        · exact .bind (keeps_variableFrom u) fun _ => .pure _
        · exact .bind (keeps_variableFrom u) fun _ => .pure _
        · exact keeps_unexpected u _
      · exact keeps_unexpected t _

/-! ## Conditions, calls and parameters -/

theorem keeps_condition (n : Nat) : Keeps (condition n) := by
  refine .bind (exprKeeps n).expression fun _ => .bind keeps_peek fun t => ?_
  split
  · exact .bind keeps_advance fun _ => .bind (exprKeeps n).expression fun _ =>
      .bind keeps_lastSpan fun _ => .pure _
  · exact .bind keeps_lastSpan fun _ => .pure _

theorem keeps_conditionsRest (n : Nat) : Keeps (conditionsRest n) := by
  induction n with
  | zero => exact keeps_exhausted
  | succ n ih =>
    refine .bind keeps_peek fun t => ?_
    split
    · refine .bind keeps_advance fun _ => .bind (keeps_condition n) fun _ => ?_
      exact .bind ih fun _ => .pure _
    · exact .pure _

theorem keeps_conditions (n : Nat) : Keeps (conditions n) :=
  .bind (keeps_condition n) fun _ => .bind (keeps_conditionsRest n) fun _ =>
    .bind keeps_lastSpan fun _ => .pure _

theorem keeps_argumentsRest (n : Nat) : Keeps (argumentsRest n) := by
  induction n with
  | zero => exact keeps_exhausted
  | succ n ih =>
    refine .bind (exprKeeps n).expression fun _ => .bind keeps_advance fun t => ?_
    split
    · exact .bind ih fun _ => .pure _
    · exact .pure _
    · exact keeps_unexpected t _

theorem keeps_arguments (n : Nat) : Keeps (arguments n) :=
  .bind (keeps_eat _) fun _ => .ite (.pure _) (keeps_argumentsRest n)

theorem keeps_moduleCallTail (n : Nat) (module : String) (start : Span) :
    Keeps (moduleCallTail n module start) :=
  .bind keeps_expectName fun _ => .bind (keeps_rejectDot _) fun _ => .bind (keeps_expect _) fun _ =>
    .bind (keeps_arguments n) fun _ => .bind keeps_lastSpan fun _ => .pure _

theorem keeps_callStmt (n : Nat) : Keeps (callStmt n) := by
  refine .bind keeps_expectName fun name => .bind keeps_advance fun t => ?_
  split
  · exact .bind (keeps_arguments n) fun _ => .bind keeps_lastSpan fun _ => .pure _
  · exact keeps_moduleCallTail n _ _
  · exact keeps_unexpected t _

theorem keeps_parametersRest (n : Nat) : Keeps (parametersRest n) := by
  induction n with
  | zero => exact keeps_exhausted
  | succ n ih =>
    refine .bind (keeps_eat _) fun _ => .bind keeps_expectName fun _ => ?_
    refine .bind keeps_advance fun t => ?_
    split
    · exact .bind ih fun _ => .pure _
    · exact .pure _
    · exact keeps_unexpected t _

theorem keeps_parameters (n : Nat) : Keeps (parameters n) :=
  .bind (keeps_eat _) fun _ => .ite (.pure _) (keeps_parametersRest n)

theorem keeps_assignment (n : Nat) : Keeps (assignment n) := by
  refine .bind keeps_advance fun t => ?_
  split
  · exact .bind (keeps_tierVariable _) fun _ => .bind (keeps_expect _) fun _ =>
      .bind (exprKeeps n).expression fun _ => .pure _
  · exact keeps_unexpected t _

/-! ## Statements and blocks -/

/-- The rules for statements and blocks, with the given fuel. Items that are not within a block end
    with the text only. -/
structure BlockKeeps (n : Nat) : Prop where
  items : ∀ enclosure opening, KeepsIf (enclosure ≠ .program) (items n enclosure opening)
  block : ∀ enclosure opening, KeepsIf (enclosure ≠ .program) (block n enclosure opening)
  bracedBlock : Keeps (bracedBlock n)
  ifStmt : Keeps (ifStmt n)
  elseBranch : Keeps (elseBranch n)
  whileStmt : Keeps (whileStmt n)
  forStmt : Keeps (forStmt n)
  fnItem : ∀ start, Keeps (fnItem n start)

section Step

variable {n : Nat} (ih : BlockKeeps n)
include ih

/-- The items after an item. -/
theorem BlockKeeps.more (enclosure : Enclosure) (opening : Span) (x : Item) :
    KeepsIf (enclosure ≠ .program) (do return x :: (← Parse.items n enclosure opening)) := by
  intro feed l feed' hfeed h
  obtain ⟨rest, feed₁, hrest, h⟩ := bind_eq_done.mp h
  obtain ⟨-, rfl⟩ := pure_eq_done.mp h
  exact ih.items _ _ _ _ _ hfeed hrest

theorem keeps_items (enclosure : Enclosure) (opening : Span) :
    KeepsIf (enclosure ≠ .program) (items (n + 1) enclosure opening) := by
  refine .peek fun t ht => ?_
  split
  · exact .bind keeps_advance fun _ => .bind (ih.block _ _).keeps fun _ => ih.more _ _ _
  · refine .ite (fun henc => .bind keeps_advance fun _ => .pure ?_ _) fun _ => .refuse _ _
    rw [henc]
    decide
  · exact .bind (keeps_assignment n) fun _ => ih.more _ _ _
  · exact .bind (keeps_callStmt n) fun _ => ih.more _ _ _
  · exact .bind ih.ifStmt fun _ => ih.more _ _ _
  · exact .bind ih.whileStmt fun _ => ih.more _ _ _
  · exact .bind ih.forStmt fun _ => ih.more _ _ _
  · exact .bind keeps_advance fun _ => ih.more _ _ _
  · exact .bind keeps_advance fun _ => ih.more _ _ _
  · exact .bind keeps_advance fun _ => .bind (ih.fnItem _) fun _ => ih.more _ _ _
  · exact .bind keeps_advance fun _ => ih.items _ _
  · next hend => exact absurd hend ht
  · refine .ite (fun henc => .pure ?_ _) fun _ => .refuse _ _
    rw [henc]
    decide
  · exact .refuse _ _

theorem keeps_block (enclosure : Enclosure) (opening : Span) :
    KeepsIf (enclosure ≠ .program) (block (n + 1) enclosure opening) := by
  intro feed b feed' hfeed h
  simp only [block, bind_eq_done, lastSpan_eq_done, pure_eq_done] at h
  obtain ⟨l, feed₁, hitems, _, _, ⟨-, rfl⟩, -, rfl⟩ := h
  exact ih.items _ _ _ _ _ hfeed hitems

theorem keeps_elseBranch : Keeps (elseBranch (n + 1)) := by
  refine .bind (keeps_eat _) fun _ => .ite (.bind keeps_peek fun t => ?_) (.pure _)
  split
  · exact .bind ih.ifStmt fun _ => .pure _
  · exact .bind ih.bracedBlock fun _ => .pure _
  · exact keeps_unexpected t _

theorem keeps_fnItem (start : Span) : Keeps (fnItem (n + 1) start) := by
  refine .bind keeps_expectName fun name => .bind keeps_advance fun t => ?_
  split
  · exact .bind (keeps_moduleCallTail n _ _) fun _ => .pure _
  · refine .bind (keeps_parameters n) fun _ => .bind (ih.block _ _).keeps fun _ =>
      .bind keeps_advance fun _ => .ite ?_ (keeps_refuse _ _)
    exact .bind (keeps_eat _) fun _ => .bind keeps_lastSpan fun _ => .pure _
  · exact keeps_unexpected t _

end Step

theorem blockKeeps (n : Nat) : BlockKeeps n := by
  induction n with
  | zero => constructor <;> intros <;> intro feed a feed' _ h <;> cases h
  | succ n ih =>
    exact {
      items := keeps_items ih
      block := keeps_block ih
      bracedBlock := .bind (keeps_expect _) fun _ => (ih.block _ _).keeps
      ifStmt := .bind (keeps_expect _) fun _ => .bind (keeps_expect _) fun _ =>
        .bind (keeps_conditions n) fun _ => .bind (keeps_expect _) fun _ =>
        .bind ih.bracedBlock fun _ => .bind ih.elseBranch fun _ => .bind keeps_lastSpan fun _ =>
        .pure _
      elseBranch := keeps_elseBranch ih
      whileStmt := .bind (keeps_expect _) fun _ => .bind (keeps_expect _) fun _ =>
        .bind (keeps_conditions n) fun _ => .bind (keeps_expect _) fun _ =>
        .bind ih.bracedBlock fun _ => .bind keeps_lastSpan fun _ => .pure _
      forStmt := .bind (keeps_expect _) fun _ => .bind (keeps_expect _) fun _ =>
        .bind (exprKeeps n).term fun _ => .bind (keeps_expect _) fun _ =>
        .bind (exprKeeps n).term fun _ => .bind (keeps_expect _) fun _ =>
        .bind ih.bracedBlock fun _ => .bind keeps_lastSpan fun _ => .pure _
      fnItem := keeps_fnItem ih }

end Parse

/-! ## Texts with a fault -/

namespace Reader

variable {r : Reader} {ts : List Token} {f : Fault}

theorem Breaks.withSkipTrivia (h : Breaks r ts f) (b : Bool) :
    Breaks { r with skipTrivia := b } ts f := by
  induction h with
  | stop hstep => exact .stop (by rw [step_skipTrivia, hstep])
  | next hstep ht _ ih => exact .next (by rw [step_skipTrivia, hstep]) ht ih

/-- Behind trivia there is the fault, or another token and the fault still ahead. -/
theorem Breaks.nextWithin {fuel : Nat} (h : Breaks r ts f) (hskip : r.skipTrivia = true)
    (hfuel : r.ahead.length ≤ fuel) :
    (∃ r', r.nextWithin fuel = (.error f, r')) ∨
      ∃ t r' us, r.nextWithin fuel = (.ok t, r') ∧ t.kind ≠ .eof ∧ r'.skipTrivia = true ∧
        r'.ahead.length < r.ahead.length ∧ Breaks r' us f := by
  induction h generalizing fuel with
  | @stop r r' f hstep =>
    refine .inl ⟨r', ?_⟩
    cases fuel with
    | zero => exact hstep
    | succ fuel => rw [Reader.nextWithin, hstep]
  | @next r r' t ts f hstep ht hrest ih =>
    obtain ⟨hlength, hskip'⟩ := step_ok hstep ht
    rw [hskip] at hskip'
    obtain ⟨fuel, rfl⟩ := Nat.exists_eq_add_one.mpr (show 0 < fuel by omega)
    rw [Reader.nextWithin, hstep]
    by_cases htrivia : t.kind.isTrivia = true
    · simp only [hskip, htrivia, Bool.and_self, if_true]
      rcases ih hskip' (show r'.ahead.length ≤ fuel by omega) with hfault | ⟨u, r'', us, hnext⟩
      · exact .inl hfault
      · obtain ⟨hread, hu, hskip'', hlength', hmore⟩ := hnext
        exact .inr ⟨u, r'', us, hread, hu, hskip'', by omega, hmore⟩
    · exact .inr ⟨t, r', ts, by simp [htrivia], ht, hskip', hlength, hrest⟩

theorem Breaks.readWithin {fuel : Nat} (h : Breaks r ts f) (hskip : r.skipTrivia = true)
    (hfuel : r.ahead.length ≤ fuel) :
    ∃ us, r.readWithin fuel = (us, .error f) ∧ ∀ t ∈ us, t.kind ≠ .eof := by
  induction fuel generalizing r ts with
  | zero =>
    rcases h.nextWithin hskip (Nat.le_add_right _ 1) with ⟨r', hnext⟩ | ⟨_, _, _, _, _, _, hlt, _⟩
    · exact ⟨[], by rw [Reader.readWithin, Reader.next, hnext], nofun⟩
    · omega
  | succ fuel ih =>
    rw [Reader.readWithin, Reader.next]
    rcases h.nextWithin hskip (Nat.le_add_right _ 1) with ⟨r', hnext⟩ | ⟨t, r', us, hnext, hmore⟩
    · rw [hnext]
      exact ⟨[], rfl, nofun⟩
    · obtain ⟨ht, hskip', hlength, hbreaks⟩ := hmore
      obtain ⟨vs, hread, hne⟩ := ih hbreaks hskip' (by omega)
      rw [hnext]
      refine ⟨t :: vs, by simp [ht, hread], ?_⟩
      intro u hu
      rcases List.mem_cons.mp hu with rfl | hu
      · exact ht
      · exact hne u hu

end Reader

theorem Feed.faulty_of_tokenize {text : List Char} {f : Fault} (h : tokenize text = .error f) :
    (Feed.ofText text).Faulty := by
  obtain ⟨ts, hbreaks⟩ := Reader.breaks_of_tokenize h
  obtain ⟨us, hread, hne⟩ := (hbreaks.withSkipTrivia true).readWithin rfl
    (show _ ≤ text.length + 1 by simp [Reader.ofText])
  have hall : (Reader.ofText text true).readAll = (us, .error f) := by
    simpa [Reader.readAll, Reader.ofText] using hread
  simp only [Feed.ofText, hall]
  exact ⟨⟨f, rfl⟩, hne⟩

/-- A text that gives a program can be read to its end. -/
theorem tokenize_of_parse {source : Source} {b : Block} (h : parse source = .ok b) :
    ∃ ts, tokenize source.text = .ok ts := by
  cases ht : tokenize source.text with
  | ok ts => exact ⟨ts, rfl⟩
  | error f =>
    obtain ⟨feed, hparse⟩ := parse_eq_ok_iff.mp h
    have hprogram := (blockKeeps _).block .program .first _ _ _ (Feed.faulty_of_tokenize ht) hparse
    exact absurd rfl hprogram.1

end TierScript
