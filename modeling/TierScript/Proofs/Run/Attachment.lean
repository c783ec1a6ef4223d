import Mathlib.Data.List.Perm.Basic
import TierScript.Proofs.Run.Stacks

/-!
# Attached blocks

A block that follows a statement is offered to it. Here the statements of a list are followed one by
one, together with the blocks that the host functions among them are given when they claim.

* `grants`: the blocks that a host function is given for its own requests.
* `turns`: the statements of a list that are run, each with its index, what it calls, the blocks it
  is given and how it ends.
* `blocks_attached_once`: every statement up to some point is either run or given to the call right
  before it, and never both; whatever runs inside a statement leaves the offer to it alone.
-/

namespace TierScript

namespace Eval

open Context Machine

/-! ## The requests of a host function one by one -/

/-- How a host function goes on after its first request, if that request comes to an end. -/
def serve (env : Env) (fuel : Nat) : Action → Machine → Option (Action × Machine)
  | .run b next, m =>
    (block (env.hold (.ofBlock b)) fuel b m).map fun e => (next e.1, e.2)
  | .runApart b next, m =>
    (block (env.hold (.ofBlock b)) fuel b { m with ctx := m.ctx.derive }).map fun e =>
      (next e.1, { m with world := e.2.world })
  | .spawn b next, m => (task env fuel b m).map fun m₁ => (next, m₁)
  | a, m => a.answer? m

/-- The block that a single request gets hold of. -/
def grant : Action → Machine → List (Linked Block)
  | .claim _, m => m.ctx.claim.1.toList
  | _, _ => []

/-- The blocks that a host function gets hold of, one after another. -/
def grants (env : Env) : Nat → Action → Machine → List (Linked Block)
  | 0, _, _ => []
  | fuel + 1, a, m =>
    grant a m ++
      match serve env fuel a m with
      | some (a₁, m₁) => grants env fuel a₁ m₁
      | none => []

/-- The offers after a statement that was given the blocks `taken`. -/
def offersAfter (offers : List Offer) (taken : List (Linked Block)) : List Offer :=
  if taken.isEmpty then offers else { claimed := true } :: offers.tail

theorem offersAfter_nil (offers : List Offer) : offersAfter offers [] = offers := rfl

theorem offersAfter_cons (offers : List Offer) (b : Linked Block) (l : List (Linked Block)) :
    offersAfter offers (b :: l) = { claimed := true } :: offers.tail := rfl

theorem claim_fst (c : Context) : c.claim.1 = c.attached? := by
  unfold Context.claim attached?
  split
  · next h => rw [h]; rfl
  · next h =>
    rw [h]
    split
    · next hb => exact hb.symm
    · next hb => exact hb.symm

theorem claim_offers (c : Context) :
    c.claim.2.offers = offersAfter c.offers c.attached?.toList := by
  rw [← claim_fst]
  unfold Context.claim
  split
  · rfl
  · next h =>
    split
    · rfl
    · rw [h]; rfl

theorem grant_cases (a : Action) (m : Machine) :
    grant a m = [] ∨ ∃ b, m.ctx.attached? = some b ∧ grant a m = [b] := by
  cases a with
  | claim next =>
    rw [grant, claim_fst]
    cases h : m.ctx.attached? with
    | none => exact .inl rfl
    | some b => exact .inr ⟨b, rfl, rfl⟩
  | _ => exact .inl rfl

/-- A block leaves all offers as they were, whatever is claimed in it. -/
theorem block_offers {env : Env} {fuel : Nat} {b : Linked Block} {m m' : Machine}
    {r : Except EvalError Unit} (h : block env fuel b m = some (r, m')) :
    m'.ctx.offers = m.ctx.offers :=
  (Ends.of_block h).restores.2 rfl

theorem serve_offers {env : Env} {fuel : Nat} {a a₁ : Action} {m m₁ : Machine}
    (h : serve env fuel a m = some (a₁, m₁)) :
    m₁.ctx.offers = offersAfter m.ctx.offers (grant a m) := by
  cases a with
  | done | fail => cases h
  | claim => cases h; rw [grant, claim_fst]; exact claim_offers m.ctx
  | run b next =>
    obtain ⟨⟨r, m'⟩, hb, heq⟩ := Option.map_eq_some_iff.mp h
    cases heq
    exact block_offers hb
  | runApart b next =>
    obtain ⟨⟨r, m'⟩, -, heq⟩ := Option.map_eq_some_iff.mp h
    cases heq
    rfl
  | spawn b next =>
    obtain ⟨m', ht, heq⟩ := Option.map_eq_some_iff.mp h
    cases heq
    obtain ⟨_, _, _, hctx, _⟩ := ends_of_task ht
    rw [hctx]
    rfl
  | write v value => cases h; exact (control_eq_iff.mp (write_control m v value)).2.2.2.2.1
  | breakLoop =>
    cases h
    show m.ctx.breakLoop.2.offers = m.ctx.offers
    unfold Context.breakLoop
    split <;> rfl
  | evaluate | look | enterLoop | exitLoop | setExit | clearExit | print | keep | kept | note =>
    cases h
    rfl

theorem action_succ (env : Env) (n : Nat) (a : Action) (m : Machine) :
    action env (n + 1) a m =
      match serve env n a m with
      | some (a₁, m₁) => action env n a₁ m₁
      | none =>
        match a with
        | .done => some (.ok (), m)
        | .fail cause => some (.error cause, m)
        | _ => none := by
  rw [action.eq_def]
  cases a with
  | run b next =>
    dsimp only [serve]
    rcases block (env.hold (.ofBlock b)) n b m with _ | ⟨r, m'⟩ <;> rfl
  | runApart b next =>
    dsimp only [serve]
    rcases block (env.hold (.ofBlock b)) n b { m with ctx := m.ctx.derive } with _ | ⟨r, m'⟩ <;> rfl
  | spawn b next =>
    dsimp only [serve]
    rcases task env n b m with _ | m' <;> rfl
  | _ => rfl

theorem attached?_of_offers {c : Context} {outer : List Offer}
    (h : c.offers = { claimed := true } :: outer) : c.attached? = none := by
  rw [attached?, h]
  rfl

theorem attached?_claim (c : Context) : c.claim.2.attached? = none := by
  have hoffers := claim_offers c
  cases hb : c.attached? with
  | none =>
    rw [hb, Option.toList_none, offersAfter_nil] at hoffers
    rw [Context.attached?, hoffers]
    exact hb
  | some b =>
    rw [hb, Option.toList_some, offersAfter_cons] at hoffers
    exact attached?_of_offers hoffers

/-- A host function gets hold of one block at most, and only of the one that is offered to it. -/
theorem grants_cases (env : Env) (fuel : Nat) (a : Action) (m : Machine) :
    grants env fuel a m = [] ∨ ∃ b, m.ctx.attached? = some b ∧ grants env fuel a m = [b] := by
  induction fuel generalizing a m with
  | zero => exact .inl rfl
  | succ n ih =>
    rw [grants]
    cases hs : serve env n a m with
    | none => simpa using grant_cases a m
    | some p =>
      obtain ⟨a₁, m₁⟩ := p
      have hoffers := serve_offers hs
      rcases grant_cases a m with hg | ⟨b, hb, hg⟩
      · rw [hg, offersAfter_nil] at hoffers
        rw [hg, List.nil_append, attached?, ← hoffers]
        exact ih a₁ m₁
      · -- once the block is taken, nothing is left for later requests
        rw [hg, offersAfter_cons] at hoffers
        rcases ih a₁ m₁ with hrest | ⟨b', hb', -⟩
        · exact .inr ⟨b, hb, by simp [hg, hrest]⟩
        · rw [attached?_of_offers hoffers] at hb'; cases hb'

/-- When a host function ends, the offer to it is as it was, unless it has claimed it itself. -/
theorem action_offers {env : Env} {fuel : Nat} {a : Action} {m m' : Machine}
    {r : Except Cause Unit} (h : action env fuel a m = some (r, m')) :
    m'.ctx.offers = offersAfter m.ctx.offers (grants env fuel a m) := by
  induction fuel generalizing a m with
  | zero => rw [action] at h; cases h
  | succ n ih =>
    rw [action_succ] at h
    rw [grants]
    cases hs : serve env n a m with
    | none =>
      rw [hs] at h
      cases a with
      | done | fail => cases h; rfl
      | _ => cases h
    | some p =>
      obtain ⟨a₁, m₁⟩ := p
      rw [hs] at h
      have hrest := ih (show action env n a₁ m₁ = some (r, m') from h)
      have hoffers := serve_offers hs
      rcases grant_cases a m with hg | ⟨b, -, hg⟩
      · rw [hg, offersAfter_nil] at hoffers
        rw [hrest, hoffers, hg]
        rfl
      · rw [hg, offersAfter_cons] at hoffers
        have hnone : grants env n a₁ m₁ = [] := by
          rcases grants_cases env n a₁ m₁ with hnil | ⟨b', hb', -⟩
          · exact hnil
          · rw [attached?_of_offers hoffers] at hb'; cases hb'
        rw [hrest, hnone, offersAfter_nil, hoffers, hg]
        rfl

/-! ## One statement -/

/-- What a statement calls: the callable, the arguments, and the machine it is called on. -/
def outgoing (env : Env) (program : ProgramId) : Stmt → Machine →
    Option (Callable × List Expr × Machine)
  | .call c, m =>
    match m.resolve env program c with
    | (.ok callable, m₁) => some (callable, c.args, m₁)
    | (.error _, _) => none
  | .moduleCall module c, m =>
    match m.resolveModuleCall env program module c with
    | (.ok callable, m₁) => some (callable, c.args, m₁)
    | (.error _, _) => none
  | _, _ => none

/-- The blocks that the host function called by a statement gets hold of. -/
def taken (env : Env) (fuel : Nat) (program : ProgramId) (s : Stmt) (m : Machine) :
    List (Linked Block) :=
  match outgoing env program s m with
  | some (.native _ _ body, args, m₁) => grants env (fuel - 2) (body args) m₁
  | _ => []

theorem stmt_outgoing {env : Env} {program : ProgramId} {s : Stmt} {m m₁ : Machine}
    {callable : Callable} {args : List Expr} (n : Nat)
    (h : outgoing env program s m = some (callable, args, m₁)) :
    stmt env (n + 1) program s m = invoke env n callable args m₁ ∧ m₁.ctx = m.ctx := by
  rw [stmt.eq_def]
  cases s with
  | call c =>
    unfold outgoing at h
    dsimp only at h ⊢
    split at h
    · next hr => cases h; rw [hr]; exact ⟨rfl, resolve_ctx hr⟩
    · cases h
  | moduleCall module c =>
    unfold outgoing at h
    dsimp only at h ⊢
    split at h
    · next hr => cases h; rw [hr]; exact ⟨rfl, resolveModuleCall_ctx hr⟩
    · cases h
  | _ => cases h

/-- A statement that calls nothing leaves the offer to it alone. -/
theorem Ends.offers_of_no_call {env : Env} {program : ProgramId} {s : Stmt} {m m' : Machine}
    {r : Except EvalError Unit} (h : Ends env (.stmt program s) m r m')
    (hs : outgoing env program s m = none) : m'.ctx.offers = m.ctx.offers := by
  cases h with
  | stmtBlock hb | ifTrue _ hb | ifFalse _ hb => exact hb.restores.2 rfl
  | assign ha => exact (control_eq_iff.mp (assign_control ha)).2.2.2.2.1
  | ifError | ifNone | forDestError | forSrcError | endCode => rfl
  | stmtWhile hw => exact hw.restores.2 rfl
  | stmtFor _ _ hf => exact hf.restores.2 rfl
  | breakLoop hb =>
    unfold breakOut Context.breakLoop at hb
    split at hb
    · next heq => split at heq <;> cases heq; cases hb; rfl
    · cases hb; rfl
  | callError hr => rw [resolve_ctx hr]
  | moduleCallError hr => rw [resolveModuleCall_ctx hr]
  | call hr => simp [outgoing, hr] at hs
  | moduleCall hr => simp [outgoing, hr] at hs

/-- A call of a script function leaves the offer to it alone, also if its body claims. -/
theorem invoke_script_offers {env : Env} {fuel : Nat} {f : Linked FnDef} {args : List Expr}
    {m m' : Machine} {r : Except EvalError Unit}
    (h : invoke env fuel (.script f) args m = some (r, m')) : m'.ctx.offers = m.ctx.offers := by
  cases Ends.of_invoke h with
  | invokeScript hs => exact hs.restores.2 rfl

theorem invoke_native_offers {env : Env} {n : Nat} {name : String} {arity : Arity}
    {body : List Expr → Action} {args : List Expr} {m m' : Machine} {r : Except EvalError Unit}
    (h : invoke env (n + 1) (.native name arity body) args m = some (r, m')) :
    m'.ctx.offers = offersAfter m.ctx.offers (grants env n (body args) m) := by
  rw [invoke.eq_def] at h
  dsimp only at h
  split at h
  · cases h
  · next ha => cases h; exact action_offers ha
  · next ha => cases h; exact action_offers ha

/-- When a statement ends, the offer to it is as it was, unless the host function that it calls has
    claimed it. -/
theorem stmt_offers {env : Env} {fuel : Nat} {program : ProgramId} {s : Stmt} {m m' : Machine}
    {r : Except EvalError Unit} (h : stmt env fuel program s m = some (r, m')) :
    m'.ctx.offers = offersAfter m.ctx.offers (taken env fuel program s m) := by
  unfold taken
  cases hout : outgoing env program s m with
  | none => exact (Ends.of_stmt h).offers_of_no_call hout
  | some p =>
    obtain ⟨callable, args, m₁⟩ := p
    cases fuel with
    | zero => rw [stmt] at h; cases h
    | succ n =>
      obtain ⟨hstmt, hctx⟩ := stmt_outgoing n hout
      rw [hstmt] at h
      rw [← hctx]
      cases callable with
      | script f => exact invoke_script_offers h
      | native name arity body =>
        cases n with
        | zero => rw [invoke] at h; cases h
        | succ k => exact invoke_native_offers h

theorem taken_cases (env : Env) (fuel : Nat) (program : ProgramId) (s : Stmt) (m : Machine) :
    taken env fuel program s m = [] ∨
      ∃ b name arity body args m₁, m.ctx.attached? = some b ∧
        taken env fuel program s m = [b] ∧
        outgoing env program s m = some (.native name arity body, args, m₁) := by
  unfold taken
  split
  · next name arity body args m₁ hout =>
    rcases grants_cases env (fuel - 2) (body args) m₁ with hg | ⟨b, hb, hg⟩
    · exact .inl hg
    · rw [(stmt_outgoing 0 hout).2] at hb
      exact .inr ⟨b, name, arity, body, args, m₁, hb, hg, hout⟩
  · exact .inl rfl

/-! ## Statements in order -/

/-- A statement of a list that is run. -/
structure Turn where
  index : Nat
  stmt : Stmt
  /-- The machine on which the statement starts, with the offer made. -/
  start : Machine
  /-- What the statement calls. -/
  callee : Option Callable
  /-- The blocks that the host function called by the statement gets hold of. -/
  granted : List (Linked Block)
  /-- How the statement ends, if it does. -/
  ending : Option Ending

/-- The indices that are taken by claims during a turn, once for each claim. -/
def Turn.claimed (t : Turn) : List Nat := t.granted.map fun _ => t.index + 1

/-- The turn of the statement `s` at the index `i`, which is followed by `rest`. -/
def turn (env : Env) (fuel : Nat) (program : ProgramId) (i : Nat) (s : Stmt) (rest : List Stmt)
    (m : Machine) : Turn :=
  let start := offering program rest m
  { index := i
    stmt := s
    start
    callee := (outgoing env program s start).map Prod.fst
    granted := taken env fuel program s start
    ending := stmt env fuel program s start }

/-- The statements of a list that are run, where `i` is the index of the first one. -/
def turns (env : Env) : Nat → ProgramId → Nat → List Stmt → Machine → List Turn
  | 0, _, _, _, _ => []
  | _ + 1, _, _, [], _ => []
  | fuel + 1, program, i, s :: rest, m =>
    if m.ctx.isTerminated then []
    else
      turn env fuel program i s rest m ::
        match stmt env fuel program s (offering program rest m) with
        | some (.ok (), m₁) =>
          turns env fuel program (if m₁.ctx.offerClaimed then i + 2 else i + 1)
            (remaining rest m₁) m₁
        | _ => []

theorem offering_offerClaimed (program : ProgramId) (rest : List Stmt) (m : Machine) :
    (offering program rest m).ctx.offerClaimed = false := by
  rw [offering, modifyCtx_ctx]
  unfold offer
  split
  · next h => rw [offerClaimed, h]; rfl
  · rfl

theorem offering_attached? {program : ProgramId} {rest : List Stmt} {m : Machine}
    {b : Linked Block} (h : (offering program rest m).ctx.attached? = some b) :
    ∃ node tail, rest = .block node :: tail ∧ b = ⟨program, node⟩ := by
  have hfollowing : following program rest = some b := by
    rw [offering, modifyCtx_ctx] at h
    unfold offer at h
    split at h
    · next hnil => rw [attached?, hnil] at h; cases h
    · exact h
  unfold following at hfollowing
  cases rest with
  | nil => cases hfollowing
  | cons s tail =>
    cases s with
    | block node => cases hfollowing; exact ⟨node, tail, rfl, rfl⟩
    | _ => cases hfollowing

section Turn

variable (env : Env) (fuel : Nat) (program : ProgramId) (i : Nat) (s : Stmt) (rest : List Stmt)
  (m : Machine)

theorem turn_granted :
    (turn env fuel program i s rest m).granted = [] ∨
      ∃ node tail name arity body, rest = .block node :: tail ∧
        (turn env fuel program i s rest m).granted = [⟨program, node⟩] ∧
        (turn env fuel program i s rest m).callee = some (.native name arity body) := by
  rcases taken_cases env fuel program s (offering program rest m) with
    h | ⟨b, name, arity, body, args, m₁, hb, h, hout⟩
  · exact .inl h
  · obtain ⟨node, tail, hrest, rfl⟩ := offering_attached? hb
    refine .inr ⟨node, tail, name, arity, body, hrest, h, ?_⟩
    show (outgoing env program s (offering program rest m)).map Prod.fst = _
    rw [hout]
    rfl

/-- The indices of a turn: its own one, and the next one if it was given the block there. -/
theorem turn_indices :
    (turn env fuel program i s rest m).claimed =
        List.range' (i + 1) (turn env fuel program i s rest m).granted.length ∧
      (turn env fuel program i s rest m).granted.length ≤ rest.length := by
  unfold Turn.claimed
  rcases turn_granted env fuel program i s rest m with
    h | ⟨node, tail, _, _, _, hrest, h, -⟩
  · rw [h]
    exact ⟨rfl, Nat.zero_le _⟩
  · rw [h, hrest]
    exact ⟨rfl, by simp⟩

variable {env fuel program i s rest m} {r : Except EvalError Unit} {m' : Machine}

/-- After a turn the offer is claimed if and only if the turn was given a block, and otherwise the
    block is still on offer. -/
theorem turn_offer (h : (turn env fuel program i s rest m).ending = some (r, m')) :
    (m'.ctx.offerClaimed = true ↔ (turn env fuel program i s rest m).granted ≠ []) ∧
      ((turn env fuel program i s rest m).granted = [] →
        m'.ctx.attached? = (turn env fuel program i s rest m).start.ctx.attached?) := by
  have hoffers := stmt_offers (show stmt env fuel program s (offering program rest m) = _ from h)
  show (m'.ctx.offerClaimed = true ↔ taken env fuel program s (offering program rest m) ≠ []) ∧
    (taken env fuel program s (offering program rest m) = [] →
      m'.ctx.attached? = (offering program rest m).ctx.attached?)
  cases ht : taken env fuel program s (offering program rest m) with
  | nil =>
    rw [ht, offersAfter_nil] at hoffers
    have hfree := offering_offerClaimed program rest m
    rw [offerClaimed, ← hoffers] at hfree
    constructor
    · simp [offerClaimed, hfree]
    · intro _
      rw [attached?, attached?, hoffers]
  | cons b l =>
    rw [ht, offersAfter_cons] at hoffers
    simp [offerClaimed, hoffers]

/-- What is left after a turn starts right behind the indices of the turn. -/
theorem turn_remaining (h : (turn env fuel program i s rest m).ending = some (r, m')) :
    (if m'.ctx.offerClaimed then i + 2 else i + 1) =
        i + 1 + (turn env fuel program i s rest m).granted.length ∧
      remaining rest m' = rest.drop (turn env fuel program i s rest m).granted.length := by
  obtain ⟨hclaimed, -⟩ := turn_offer h
  rcases turn_granted env fuel program i s rest m with hg | ⟨node, tail, _, _, _, hrest, hg, -⟩
  · have hfree : m'.ctx.offerClaimed = false := by simpa [hg] using hclaimed
    simp [remaining, hfree, hg]
  · have htaken : m'.ctx.offerClaimed = true := by simp [hclaimed, hg]
    rw [hg, remaining, htaken, hrest]
    exact ⟨rfl, rfl⟩

end Turn

/-- The indices of turns, those that are run and those that are claimed, in the order of the
    list. -/
def covered (ts : List Turn) : List Nat := ts.flatMap fun t => t.index :: t.claimed

theorem covered_perm (ts : List Turn) :
    (covered ts).Perm (ts.map Turn.index ++ ts.flatMap Turn.claimed) :=
  (List.map_append_flatMap_perm ts Turn.index Turn.claimed).symm

section Turns

variable {env : Env} {program : ProgramId}

theorem stmts_cons (fuel : Nat) (s : Stmt) (rest : List Stmt) {m : Machine}
    (ht : m.ctx.isTerminated = false) :
    stmts env (fuel + 1) program (s :: rest) m =
      match stmt env fuel program s (offering program rest m) with
      | none => none
      | some (.error e, m₁) => some (.error e, m₁)
      | some (.ok (), m₁) => stmts env fuel program (remaining rest m₁) m₁ := by
  rw [stmts, ht]
  rfl

theorem covered_turn (fuel i : Nat) (s : Stmt) (rest : List Stmt) (m : Machine) (ts : List Turn)
    {n : Nat} (h : covered ts =
      List.range' (i + 1 + (turn env fuel program i s rest m).granted.length) n) :
    covered (turn env fuel program i s rest m :: ts) =
      List.range' i (1 + (turn env fuel program i s rest m).granted.length + n) := by
  have hclaimed := (turn_indices env fuel program i s rest m).1
  calc covered (turn env fuel program i s rest m :: ts)
      = i :: ((turn env fuel program i s rest m).claimed ++ covered ts) := rfl
    _ = i :: List.range' (i + 1) ((turn env fuel program i s rest m).granted.length + n) := by
      rw [hclaimed, h, List.range'_append_1]
    _ = List.range' i (1 + (turn env fuel program i s rest m).granted.length + n) := by
      rw [Nat.add_assoc, Nat.add_comm 1, List.range'_succ]

variable (env program) in
/-- Indices follow each other without a gap, and reach the end of the list if the run does. -/
theorem turns_covered (fuel i : Nat) (l : List Stmt) (m : Machine) :
    ∃ n, n ≤ l.length ∧ covered (turns env fuel program i l m) = List.range' i n ∧
      ∀ m', stmts env fuel program l m = some (.ok (), m') → m'.ctx.isTerminated = false →
        n = l.length := by
  induction fuel generalizing i l m with
  | zero =>
    refine ⟨0, Nat.zero_le _, rfl, ?_⟩
    intro m' h
    rw [stmts] at h
    cases h
  | succ fuel ih =>
    cases l with
    | nil => exact ⟨0, Nat.le_refl 0, rfl, fun _ _ _ => rfl⟩
    | cons s rest =>
      rw [turns]
      split
      · next ht =>
        refine ⟨0, Nat.zero_le _, rfl, ?_⟩
        intro m' h hlive
        rw [stmts, if_pos ht] at h
        cases h
        rw [ht] at hlive
        cases hlive
      · next ht =>
        rw [stmts_cons fuel s rest (Bool.eq_false_iff.mpr ht)]
        have hfits := (turn_indices env fuel program i s rest m).2
        split
        · next m₁ hend =>
          obtain ⟨hindex, hrest⟩ := turn_remaining
            (show (turn env fuel program i s rest m).ending = some (.ok (), m₁) from hend)
          obtain ⟨n, hle, hcov, hall⟩ :=
            ih (i + 1 + (turn env fuel program i s rest m).granted.length) (remaining rest m₁) m₁
          have hlen := congrArg List.length hrest
          rw [List.length_drop] at hlen
          refine ⟨_, ?_, covered_turn fuel i s rest m _ (by rw [hindex]; exact hcov), ?_⟩
          · rw [List.length_cons]
            omega
          · intro m' h hlive
            rw [hend] at h
            have := hall m' h hlive
            rw [List.length_cons]
            omega
        · next hno =>
          refine ⟨_, ?_, covered_turn fuel i s rest m [] (n := 0) rfl, ?_⟩
          · rw [List.length_cons]
            omega
          · intro m' h
            split at h
            · cases h
            · cases h
            · next m₁ hend => exact (hno m₁ hend).elim

/-- A run ends like its last turn. -/
theorem stmts_ending {fuel i : Nat} {l : List Stmt} {m m' : Machine} {r : Except EvalError Unit}
    (h : stmts env fuel program l m = some (r, m')) :
    (turns env fuel program i l m = [] ∧ r = .ok () ∧ m' = m) ∨
      ∃ t, (turns env fuel program i l m).getLast? = some t ∧ t.ending = some (r, m') := by
  induction fuel generalizing i l m with
  | zero => rw [stmts] at h; cases h
  | succ fuel ih =>
    cases l with
    | nil => rw [stmts] at h; cases h; exact .inl ⟨rfl, rfl, rfl⟩
    | cons s rest =>
      rw [turns]
      split
      · next ht =>
        rw [stmts, if_pos ht] at h
        cases h
        exact .inl ⟨rfl, rfl, rfl⟩
      · next ht =>
        right
        rw [stmts_cons fuel s rest (Bool.eq_false_iff.mpr ht)] at h
        split at h
        · cases h
        · next hend =>
          cases h
          rw [hend]
          exact ⟨_, rfl, hend⟩
        · next m₁ hend =>
          rw [hend]
          dsimp only
          rcases ih (i := if m₁.ctx.offerClaimed then i + 2 else i + 1) h with
            ⟨hnil, rfl, rfl⟩ | ⟨t, hlast, ht⟩
          · rw [hnil]
            exact ⟨_, rfl, hend⟩
          · refine ⟨t, ?_, ht⟩
            rw [List.getLast?_cons, hlast]
            rfl

/-- A property of all turns of the list `l₀`, where `l` is what is left of it. -/
theorem turns_forall {l₀ : List Stmt} {p : Turn → Prop}
    (hp : ∀ fuel i s rest m, l₀.drop i = s :: rest → p (turn env fuel program i s rest m))
    {fuel i : Nat} {l : List Stmt} {m : Machine} (hl : l₀.drop i = l) {t : Turn}
    (ht : t ∈ turns env fuel program i l m) : p t := by
  induction fuel generalizing i l m with
  | zero => cases ht
  | succ fuel ih =>
    cases l with
    | nil => cases ht
    | cons s rest =>
      rw [turns] at ht
      split at ht
      · cases ht
      · rcases List.mem_cons.mp ht with rfl | ht
        · exact hp fuel i s rest m hl
        · split at ht
          · next m₁ hend =>
            obtain ⟨hindex, hrest⟩ := turn_remaining
              (show (turn env fuel program i s rest m).ending = some (.ok (), m₁) from hend)
            refine ih ?_ ht
            rw [hindex, hrest, ← List.drop_drop, ← List.drop_drop, hl]
            rfl
          · cases ht

end Turns

/-! ## Every block once -/

/-- What holds of a turn in a run of the list `l`. -/
structure Turn.Sound (env : Env) (program : ProgramId) (l : List Stmt) (t : Turn) : Prop where
  /-- The statement stands at the index, and the ending is its own. -/
  ran : l[t.index]? = some t.stmt ∧ ∃ fuel, t.ending = Eval.stmt env fuel program t.stmt t.start
  /-- A block is given only to a call of a host function, and it is the one right after the call. -/
  given : t.granted = [] ∨ ∃ node c name arity body, l[t.index + 1]? = some (.block node) ∧
    t.granted = [⟨program, node⟩] ∧ (t.stmt = .call c ∨ ∃ module, t.stmt = .moduleCall module c) ∧
    t.callee = some (.native name arity body)
  /-- The offer counts as claimed if and only if the host function was given the block. Otherwise it
      is still there, so nothing that ran inside the statement took it. -/
  left : ∀ r m', t.ending = some (r, m') →
    (m'.ctx.offerClaimed = true ↔ t.granted ≠ []) ∧
    (t.granted = [] → m'.ctx.attached? = t.start.ctx.attached?)

theorem outgoing_isCall {env : Env} {program : ProgramId} {s : Stmt} {m : Machine}
    {p : Callable × List Expr × Machine} (h : outgoing env program s m = some p) :
    ∃ c, s = .call c ∨ ∃ module, s = .moduleCall module c := by
  cases s with
  | call c => exact ⟨c, .inl rfl⟩
  | moduleCall module c => exact ⟨c, .inr ⟨module, rfl⟩⟩
  | _ => cases h

theorem turn_sound {env : Env} {program : ProgramId} {l : List Stmt} (fuel i : Nat) (s : Stmt)
    (rest : List Stmt) (m : Machine) (hl : l.drop i = s :: rest) :
    (turn env fuel program i s rest m).Sound env program l := by
  have hat (k : Nat) : l[i + k]? = (s :: rest)[k]? := by rw [← hl, List.getElem?_drop]
  refine ⟨⟨hat 0, fuel, rfl⟩, ?_, fun r m' h => turn_offer h⟩
  rcases turn_granted env fuel program i s rest m with
    h | ⟨node, tail, name, arity, body, hrest, h, hcallee⟩
  · exact .inl h
  · obtain ⟨p, hout, -⟩ := Option.map_eq_some_iff.mp hcallee
    obtain ⟨c, hc⟩ := outgoing_isCall hout
    refine .inr ⟨node, c, name, arity, body, ?_, h, hc, hcallee⟩
    rw [show (turn env fuel program i s rest m).index = i from rfl, hat 1, hrest]
    rfl

/-- The indices of a list that are run as statements and those that are given away as attached
    blocks, together and each with its number of times, are the first ones of the list; all of them
    if the run ends without an error and nothing stops it. A block is given only to the call of a
    host function right before it, and a run ends as its last statement does. -/
theorem blocks_attached_once (env : Env) (fuel : Nat) (program : ProgramId) (l : List Stmt)
    (m : Machine) :
    (∃ n, n ≤ l.length ∧
      ((turns env fuel program 0 l m).map Turn.index ++
        (turns env fuel program 0 l m).flatMap Turn.claimed).Perm (List.range n) ∧
      ∀ m', stmts env fuel program l m = some (.ok (), m') → m'.ctx.isTerminated = false →
        n = l.length) ∧
    (∀ t ∈ turns env fuel program 0 l m, t.Sound env program l) ∧
    (∀ r m', stmts env fuel program l m = some (r, m') →
      (turns env fuel program 0 l m = [] ∧ r = .ok () ∧ m' = m) ∨
        ∃ t, (turns env fuel program 0 l m).getLast? = some t ∧ t.ending = some (r, m')) := by
  refine ⟨?_, ?_, fun r m' h => stmts_ending h⟩
  · obtain ⟨n, hle, hcov, hall⟩ := turns_covered env program fuel 0 l m
    refine ⟨n, hle, ?_, hall⟩
    rw [List.range_eq_range', ← hcov]
    exact (covered_perm _).symm
  · intro t ht
    exact turns_forall (fun fuel i s rest m hl => turn_sound fuel i s rest m hl) List.drop_zero ht

/-- An environment with a host function that claims twice and one that runs the block it claims. -/
def claiming : Env :=
  { registry :=
      (({ generation := 1 } : Registry).register 2 Tool.claim.callable).register 3
        Tool.twice.callable }

/-- `twice` is given the block at 1, in which `claim` is given the block after it; the block at 3 is
    not given to an assignment. -/
theorem blocks_attached_once_claiming :
    let inner : Block := ⟨[.call ⟨"claim", [], .first⟩, .block default], [], .first⟩
    let l : List Stmt := [.call ⟨"twice", [], .first⟩, .block inner,
      .assign ⟨.loc, "x"⟩ default .first, .block default]
    let m : Machine := ⟨{ session := 1, store := 0, offers := [{}] }, {}⟩
    (turns claiming 20 1 0 l m).map Turn.index = [0, 2, 3] ∧
      (turns claiming 20 1 0 l m).flatMap Turn.claimed = [1] ∧
      ∃ n, n ≤ 4 ∧ [0, 2, 3, 1].Perm (List.range n) := by
  intro inner l m
  have hrun : (turns claiming 20 1 0 l m).map Turn.index = [0, 2, 3] := by decide +kernel
  have hclaimed : (turns claiming 20 1 0 l m).flatMap Turn.claimed = [1] := by decide +kernel
  obtain ⟨n, hle, hperm, -⟩ := (blocks_attached_once claiming 20 1 l m).1
  rw [hrun, hclaimed] at hperm
  exact ⟨hrun, hclaimed, n, hle, hperm⟩

end Eval

end TierScript
