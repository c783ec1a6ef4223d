import TierScript.Proofs.Program.Course
import TierScript.Proofs.Program.Fuel

/-!
# Progress

A round of a loop of the parser may give back what it looked at, and at the end of the text it takes
nothing, so that it has to be shown that the loop does not go on without having taken a token.

* `Parse.Moves`: a round comes to an end, and the loop goes on only with fewer tokens.
* `Parse.Advances`: the same of texts, where fewer tokens are a larger offset of the reader.
* `parser_progresses`: in every text, a round after which the loop goes on ends with the reader at a
  larger offset, and the parser never runs out of fuel.
-/

namespace TierScript

open Parse Reader

namespace Parse

variable {α β : Type}

/-- Whether the reply is that of a round after which the loop goes on. -/
def goesOn : Reply (Round α) → Bool
  | .done (.more _) _ => true
  | _ => false

theorem exists_of_goesOn {reply : Reply (Round α)} (h : goesOn reply = true) :
    ∃ found feed', reply = .done (.more found) feed' := by
  unfold goesOn at h
  split at h
  · exact ⟨_, _, rfl⟩
  · cases h

/-! ## Every round takes a token -/

/-- From what is left of the feed `F`, no more than `l` tokens, the round comes to an end, and if
    the loop goes on fewer than `k` tokens are left. -/
def Moves (F : Feed) (k l : Nat) (round : Parse (Round α)) : Prop :=
  ∀ feed, feed.LeftOf F → feed.items.length ≤ l →
    match round feed with
    | .done (.more _) feed' => feed'.LeftOf F ∧ feed'.items.length < k
    | .done (.last _) _ | .fault _ => True
    | .exhausted => False

variable {F : Feed} {k l fuel : Nat}

namespace Moves

theorem bind {p : Parse β} {q : β → Nat → Prop} {f : β → Parse (Round α)} (hp : Accounts F l p q)
    (hf : ∀ b m, q b m → Moves F k m (f b)) : Moves F k l (p >>= f) := by
  intro feed hleft hlength
  have hfirst := hp feed hleft hlength
  rw [bind_apply]
  cases hreply : p feed with
  | done b feed' =>
    rw [hreply] at hfirst
    exact hf b _ hfirst.2 feed' hfirst.1 (Nat.le_refl _)
  | fault f => trivial
  | exhausted =>
    rw [hreply] at hfirst
    exact hfirst

theorem more (found : List α) (h : l < k) : Moves F k l (return .more found) :=
  fun _ hleft hlength => ⟨hleft, Nat.lt_of_le_of_lt hlength h⟩

theorem last (found : List α) : Moves F k l (return .last found) := fun _ _ _ => trivial

theorem refuse (complaint : Complaint) (span : Span) :
    Moves F k l (Parse.refuse complaint span : Parse (Round α)) := fun _ _ _ => trivial

theorem ite {c : Prop} [Decidable c] {round round' : Parse (Round α)} (h : Moves F k l round)
    (h' : Moves F k l round') : Moves F k l (if c then round else round') := by
  split
  · exact h
  · exact h'

end Moves

section Regular

variable (hF : F.Regular)
include hF

theorem moves_operandRound (hfuel : 4 * l + 4 ≤ fuel) : Moves F l l (operandRound fuel) := by
  have hterm := (exprAccounts hF fuel).term
  refine .bind (accounts_peek hF) fun t m ⟨_, hm, hsome⟩ => .ite ?_ ?_
  · refine .bind (accounts_advance hF) fun _ m₁ ⟨_, hm₁, _⟩ => ?_
    refine .bind (accounts_advance hF) fun o m₂ ⟨_, hm₂, _⟩ => ?_
    split
    · exact .bind (hterm m₂ (by omega)) fun _ m₃ hm₃ => .more _ (by omega)
    · exact .refuse _ _
  · split
    · refine .bind (accounts_advance hF) fun _ m₁ ⟨_, hm₁, _⟩ => ?_
      exact .bind (hterm m₁ (by omega)) fun _ m₂ hm₂ => .more _ (by omega)
    · exact .last []

theorem moves_conditionRound (hfuel : 4 * l + 4 ≤ fuel) : Moves F l l (conditionRound fuel) := by
  refine .bind (accounts_peek hF) fun t m ⟨_, hm, _⟩ => ?_
  split
  · refine .bind (accounts_advance hF) fun _ m₁ ⟨_, hm₁, _⟩ => ?_
    exact .bind (accounts_condition hF (by omega)) fun _ m₂ hm₂ => .more _ (by omega)
  · exact .last []

theorem moves_argumentRound (hfuel : 4 * l + 4 ≤ fuel) : Moves F l l (argumentRound fuel) := by
  refine .bind ((exprAccounts hF fuel).expression l (by omega)) fun _ m hm => ?_
  refine .bind (accounts_advance hF) fun t m₁ ⟨_, hm₁, _⟩ => ?_
  split
  · exact .more _ (by omega)
  · exact .last _
  · exact .refuse _ _

theorem moves_parameterRound : Moves F l l (parameterRound fuel) := by
  refine .bind (accounts_eat hF (by nofun)) fun _ m ⟨hm, _⟩ => ?_
  refine .bind (accounts_expectName hF) fun _ m₁ hm₁ => ?_
  refine .bind (accounts_advance hF) fun t m₂ ⟨_, hm₂, _⟩ => ?_
  split
  · exact .more _ (by omega)
  · exact .last _
  · exact .refuse _ _

theorem moves_itemRound (enclosure : Enclosure) (opening : Span) (hfuel : 4 * l + 4 ≤ fuel) :
    Moves F l l (itemRound enclosure opening fuel) := by
  have hblock := blockAccounts hF fuel
  refine .bind (accounts_peek hF) fun t m ⟨ht, hm, hsome⟩ => ?_
  -- what follows a word that is taken has fewer tokens
  have hword {round : Parse (Round Item)} (hk : t.kind ≠ .eof)
      (hround : ∀ m₁, m₁ < l → Moves F l m₁ round) : Moves F l m (advance >>= fun _ => round) := by
    have := hsome hk
    exact .bind (accounts_advance hF) fun _ m₁ ⟨_, hm₁, _⟩ => hround m₁ (by omega)
  split
  · next hk =>
    refine hword (by rw [hk]; nofun) fun m₁ hm₁ => ?_
    exact .bind (hblock.block m₁ _ _ (by omega) fun _ => ⟨t, ht, hk, rfl⟩) fun _ m₂ hm₂ =>
      .more _ (by omega)
  · exact .ite (.bind (accounts_advance hF) fun _ _ _ => .last []) (.refuse _ _)
  · exact .bind (accounts_assignment hF (by omega)) fun _ _ hm₁ => .more _ (by omega)
  · exact .bind (accounts_callStmt hF (by omega)) fun _ _ hm₁ => .more _ (by omega)
  · exact .bind (hblock.ifStmt m (by omega) (by omega)) fun _ _ hm₁ => .more _ (by omega)
  · exact .bind (hblock.whileStmt m (by omega) (by omega)) fun _ _ hm₁ => .more _ (by omega)
  · exact .bind (hblock.forStmt m (by omega) (by omega)) fun _ _ hm₁ => .more _ (by omega)
  · next hk => exact hword (by rw [hk]; nofun) fun _ hm₁ => .more _ hm₁
  · next hk => exact hword (by rw [hk]; nofun) fun _ hm₁ => .more _ hm₁
  · next hk =>
    refine hword (by rw [hk]; nofun) fun m₁ hm₁ => ?_
    exact .bind (hblock.fnItem m₁ _ (by omega)) fun _ _ hm₂ => .more _ (by omega)
  · next hk => exact hword (by rw [hk]; nofun) fun _ hm₁ => .more _ hm₁
  · exact .ite (.refuse _ _) (.last [])
  · exact .ite (.last []) (.refuse _ _)
  · exact .refuse _ _

end Regular

/-! ## Offsets -/

/-- In the text, a round of the loop comes to an end with fuel for the tokens that are left.
    Whatever the fuel, if the loop goes on the round has left fewer tokens, and the reader of the
    text, which can get there by taking tokens, stands at a larger offset than the round began
    at. -/
structure Advances (text : List Char) (round : Nat → Parse (Round α)) : Prop where
  ends : ∀ fuel feed, feed.LeftOf (Feed.ofText text) → 4 * feed.items.length + 4 ≤ fuel →
    round fuel feed ≠ .exhausted
  moves : ∀ fuel feed found feed', feed.LeftOf (Feed.ofText text) →
    round fuel feed = .done (.more found) feed' →
    feed'.LeftOf (Feed.ofText text) ∧ feed'.items.length < feed.items.length ∧
      ∀ s : Session, s.Follows text feed.items →
        (∃ n, (s.after (List.replicate n .next)).Follows text feed'.items) ∧
        ∀ s' : Session, s'.Follows text feed'.items → s.reader.stop < s'.reader.stop

theorem Advances.of_moves {round : Nat → Parse (Round α)}
    (hextends : ∀ n m, n ≤ m → Extends (round n) (round m))
    (hmoves : ∀ F : Feed, F.Regular → ∀ fuel l, 4 * l + 4 ≤ fuel → Moves F l l (round fuel))
    (text : List Char) : Advances text round := by
  have henough (fuel : Nat) (feed : Feed) (hleft : feed.LeftOf (Feed.ofText text))
      (hfuel : 4 * feed.items.length + 4 ≤ fuel) :=
    hmoves _ (Feed.regular_ofText text) fuel _ hfuel feed hleft (Nat.le_refl _)
  constructor
  · intro fuel feed hleft hfuel h
    have hround := henough fuel feed hleft hfuel
    rw [h] at hround
    exact hround
  · intro fuel feed found feed' hleft h
    have hround := henough (max fuel (4 * feed.items.length + 4)) feed hleft (Nat.le_max_right _ _)
    rw [(hextends _ _ (Nat.le_max_left _ _)).done h] at hround
    obtain ⟨hleft', hlength⟩ := hround
    obtain ⟨taken, htaken⟩ := List.suffix_of_suffix_length_le hleft'.items hleft.items
      (Nat.le_of_lt hlength)
    have hne : taken ≠ [] := by
      rintro rfl
      rw [← htaken] at hlength
      exact Nat.lt_irrefl _ hlength
    refine ⟨hleft', hlength, fun s hs => ?_⟩
    rw [← htaken] at hs
    exact ⟨⟨taken.length, hs.after⟩, fun s' hs' => hs.stop_lt hs' hne⟩

/-- The rule is a loop, and its rounds advance in every text. -/
def Progresses (loop : Nat → Parse (List α)) (round : Nat → Parse (Round α)) : Prop :=
  loop = rounds round ∧ ∀ text, Advances text round

end Parse

/-- The feed without its first tokens. -/
def Feed.drop (n : Nat) (feed : Feed) : Feed := { feed with items := feed.items.drop n }

theorem Feed.leftOf_drop (n : Nat) (feed : Feed) : (feed.drop n).LeftOf feed :=
  ⟨List.drop_suffix n feed.items, rfl⟩

/-- A reader that takes the first tokens stands in front of the others. -/
theorem Feed.follows_drop {text : List Char} {n : Nat} (hn : n ≤ (Feed.ofText text).items.length) :
    ((Session.start text true).after (List.replicate n .next)).Follows text
      ((Feed.ofText text).drop n).items := by
  have hall : (Session.start text true).Follows text
      ((Feed.ofText text).items.take n ++ (Feed.ofText text).items.drop n) := by
    rw [List.take_append_drop]
    exact .start
  have hafter := hall.after
  rwa [List.length_take_of_le hn] at hafter

/-- The reader can stand in front of any tokens that are left of a text. -/
theorem Feed.LeftOf.exists_follows {text : List Char} {feed : Feed}
    (h : feed.LeftOf (Feed.ofText text)) : ∃ s : Session, s.Follows text feed.items := by
  obtain ⟨taken, htaken⟩ := h.items
  have hall : (Session.start text true).Follows text (taken ++ feed.items) := htaken ▸ .start
  exact ⟨_, hall.after⟩

/-- The parser makes progress in every text. It never runs out of fuel, of which four times the
    number of tokens and two are enough: from there on the amount makes no difference. The items of
    a block, arguments, parameters, operands and conditions are loops, and every round after which a
    loop goes on ends with the reader at a larger offset than it began. -/
theorem parser_progresses :
    (∀ text, parseText text ≠ .exhausted ∧
      ∀ fuel, 4 * (Feed.ofText text).items.length + 2 ≤ fuel →
        block fuel .program .first (Feed.ofText text) = parseText text) ∧
    (∀ text (feed : Feed), feed.LeftOf (Feed.ofText text) →
      ∃ s : Session, s.Follows text feed.items) ∧
    (∀ enclosure opening, Progresses (items · enclosure opening) (itemRound enclosure opening)) ∧
    Progresses argumentsRest argumentRound ∧ Progresses parametersRest parameterRound ∧
    Progresses operands operandRound ∧ Progresses conditionsRest conditionRound := by
  refine ⟨fun text => ⟨parseText_ne_exhausted text, fun _ => block_eq_parseText text⟩,
    fun _ _ => Feed.LeftOf.exists_follows, fun enclosure opening => ⟨items_eq_rounds _ _, ?_⟩,
    ⟨argumentsRest_eq_rounds, ?_⟩, ⟨parametersRest_eq_rounds, ?_⟩, ⟨operands_eq_rounds, ?_⟩,
    ⟨conditionsRest_eq_rounds, ?_⟩⟩
  · exact .of_moves (fun _ _ h => (blockExtends h).itemRound h enclosure opening)
      fun _ hF _ _ => moves_itemRound hF enclosure opening
  · exact .of_moves (fun _ _ => extends_argumentRound) fun _ hF _ _ => moves_argumentRound hF
  · exact .of_moves (fun _ _ _ => .refl _) fun _ hF _ _ _ => moves_parameterRound hF
  · exact .of_moves (fun _ _ h => extends_operandRound (exprExtends h).term)
      fun _ hF _ _ => moves_operandRound hF
  · exact .of_moves (fun _ _ => extends_conditionRound) fun _ hF _ _ => moves_conditionRound hF

/-- A definition whose text ends in the arguments of a call in its body. -/
def unclosed : List Char := "fn f(a, *b) x(1".toList

/-- The eleven tokens need no more fuel than 46, although the text ends too early. The first round
    of the parameters begins at the offset 5, and goes on from a larger one. -/
theorem parser_progresses_unclosed :
    block 46 .program .first (Feed.ofText unclosed) = parseText unclosed ∧
      ∃ found feed' s s',
        parameterRound 0 ((Feed.ofText unclosed).drop 3) = .done (.more found) feed' ∧
        Session.Follows unclosed s ((Feed.ofText unclosed).drop 3).items ∧
        Session.Follows unclosed s' feed'.items ∧ s.reader.stop = 5 ∧ 5 < s'.reader.stop := by
  obtain ⟨hfuel, -, -, -, ⟨-, hparameters⟩, -⟩ := parser_progresses
  have hleft := Feed.leftOf_drop 3 (Feed.ofText unclosed)
  have hstart := Feed.follows_drop (show 3 ≤ (Feed.ofText unclosed).items.length by decide +kernel)
  have hstop : ((Session.start unclosed true).after (List.replicate 3 .next)).reader.stop = 5 := by
    decide +kernel
  have hmore : goesOn (parameterRound 0 ((Feed.ofText unclosed).drop 3)) = true := by
    decide +kernel
  obtain ⟨found, feed', hround⟩ := exists_of_goesOn hmore
  obtain ⟨-, -, hmoves⟩ := (hparameters unclosed).moves 0 _ found feed' hleft hround
  obtain ⟨⟨n, hfollows⟩, hlarger⟩ := hmoves _ hstart
  have henough : 4 * (Feed.ofText unclosed).items.length + 2 ≤ 46 := by decide +kernel
  exact ⟨(hfuel unclosed).2 46 henough, found, feed', _, _, hround, hstart, hfollows, hstop,
    hstop ▸ hlarger _ hfollows⟩

end TierScript
