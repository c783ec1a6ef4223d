import TierScript.Proofs.Run.Adequacy
import TierScript.Proofs.Run.Structured
import TierScript.Proofs.Run.Upkeep

/-!
# Marks of a context

The evaluator keeps a break and an exit as marks on the context: one for each loop around the
statement that runs, one for an early exit.

* `Machine.marked`: a machine with other marks. Nothing but `break`, `endcode` and the tests for
  termination depends on them, so all other operations commute with it.
* `Pending`: the marks of a context on which a signal is pending.
* `Ends.idle`: on a terminated context blocks and loops do nothing.
-/

namespace TierScript

theorem Context.offer_marks (c : Context) (block : Option (Linked Block)) (loops : List Bool)
    (earlyExit : Bool) :
    ({ c with loops, earlyExit } : Context).offer block =
      { c.offer block with loops, earlyExit } := by
  rcases c with ⟨session, store, locals, _, lexical, _ | ⟨top, outer⟩, _, depth⟩ <;> rfl

theorem Context.claim_marks (c : Context) (loops : List Bool) (earlyExit : Bool) :
    ({ c with loops, earlyExit } : Context).claim =
      (c.claim.1, { c.claim.2 with loops, earlyExit }) := by
  rcases c with ⟨session, store, locals, _, lexical, _ | ⟨⟨_ | b, claimed⟩, outer⟩, _, depth⟩ <;>
    rfl

namespace Machine

/-! ## Machines with other marks -/

/-- The machine with the given marks for loops and early exit. -/
def marked (m : Machine) (loops : List Bool) (earlyExit : Bool) : Machine :=
  { m with ctx := { m.ctx with loops, earlyExit } }

section Marked

variable (m : Machine) (l : List Bool) (e : Bool)

@[simp] theorem marked_world : (m.marked l e).world = m.world := rfl

@[simp] theorem marked_lookup : (m.marked l e).lookup = m.lookup := rfl

@[simp] theorem marked_marked (l' : List Bool) (e' : Bool) :
    (m.marked l e).marked l' e' = m.marked l' e' := rfl

theorem marked_self : m.marked m.ctx.loops m.ctx.earlyExit = m := rfl

theorem marked_enterBlock (b : Linked Block) :
    (m.enterBlock b).marked l e = (m.marked l e).enterBlock b := by
  simp only [enterBlock, modifyCtx, marked, Context.pushFunctions]
  split <;> rfl

theorem marked_leaveBlock (b : Linked Block) :
    (m.leaveBlock b).marked l e = (m.marked l e).leaveBlock b := by
  simp only [leaveBlock, modifyCtx, marked, Context.popFunctions]
  split <;> rfl

theorem marked_write (v : Var) (value : Value) :
    (m.write v value).marked l e = (m.marked l e).write v value := by
  simp only [write, marked, Context.write]
  cases v.tier <;> rfl

theorem marked_copyBack (f : FnDef) (args : List Expr) (callee : Context) (outs : List Nat) :
    (copyBack f args callee m outs).marked l e = copyBack f args callee (m.marked l e) outs := by
  induction outs generalizing m with
  | nil => rfl
  | cons position rest ih =>
    unfold copyBack
    split
    · rw [ih, marked_write]
    · rw [ih]

/-- Only the variables of the callee are copied back. -/
theorem copyBack_callee (f : FnDef) (args : List Expr) {callee callee' : Context}
    (h : callee'.locals = callee.locals) (outs : List Nat) :
    copyBack f args callee' m outs = copyBack f args callee m outs := by
  induction outs generalizing m with
  | nil => rfl
  | cons position rest ih =>
    unfold copyBack
    rw [h]
    split <;> exact ih _

variable {m l e} {m' : Machine}

theorem assign_marked {target : Var} {value : Expr} {r : Except EvalError Unit}
    (h : m.assign target value = (r, m')) :
    (m.marked l e).assign target value = (r, m'.marked l e) := by
  unfold assign at h ⊢
  rw [marked_lookup]
  split at h
  · cases h; rw [marked_write]
  · cases h; rfl

theorem resolve_marked {env : Env} {program : ProgramId} {c : Call}
    {r : Except EvalError Callable} (h : m.resolve env program c = (r, m')) :
    (m.marked l e).resolve env program c = (r, m'.marked l e) := by
  have hrem : (m.marked l e).remembered? env = m.remembered? env := rfl
  have hsearch : search? env (m.marked l e).ctx = search? env m.ctx := rfl
  unfold resolve at h ⊢
  rw [hrem, hsearch]
  dsimp only at h ⊢
  split at h
  · cases h; rfl
  · split at h <;> cases h <;> rfl

theorem resolveModule_marked {env : Env} {site : CallSite} {module : String} {id : Option Nat}
    (h : m.resolveModule env site module = (id, m')) :
    (m.marked l e).resolveModule env site module = (id, m'.marked l e) := by
  have fresh (h : resolveModule.fresh env site module m = (id, m')) :
      resolveModule.fresh env site module (m.marked l e) = (id, m'.marked l e) := by
    unfold resolveModule.fresh at h ⊢
    split at h <;> cases h <;> rfl
  unfold resolveModule at h ⊢
  rw [marked_world]
  split at h
  · split at h
    · next hg => cases h; rw [if_pos hg]
    · next hg => rw [if_neg hg]; exact fresh h
  · exact fresh h

theorem resolveIn_marked {env : Env} {site : CallSite} {module : Module} {r : Option Callable}
    (h : m.resolveIn env site module = (r, m')) :
    (m.marked l e).resolveIn env site module = (r, m'.marked l e) := by
  unfold resolveIn at h ⊢
  rw [marked_world]
  dsimp only at h ⊢
  split at h
  · cases h; rfl
  · split at h <;> cases h <;> rfl

theorem resolveModuleCall_marked {env : Env} {program : ProgramId} {module : String} {c : Call}
    {r : Except EvalError Callable} (h : m.resolveModuleCall env program module c = (r, m')) :
    (m.marked l e).resolveModuleCall env program module c = (r, m'.marked l e) := by
  unfold resolveModuleCall at h ⊢
  dsimp only at h ⊢
  split at h
  · next hmod => cases h; rw [resolveModule_marked hmod]
  · next hmod =>
    rw [resolveModule_marked hmod]
    dsimp only
    split at h
    · cases h; rfl
    · split at h
      · next hin => cases h; rw [resolveIn_marked hin]
      · next hin => cases h; rw [resolveIn_marked hin]

theorem answer?_marked {a a₁ : Action} (hn : Eval.Neutral a) (h : a.answer? m = some (a₁, m')) :
    a.answer? (m.marked l e) = some (a₁, m'.marked l e) := by
  cases a with
  | done | fail | run | runApart | spawn => cases h
  | enterLoop | exitLoop | breakLoop | setExit | clearExit => exact hn.elim
  | look next =>
    cases h
    show some (next (m.marked l e).ctx, m.marked l e) = _
    rw [show next (m.marked l e).ctx = next m.ctx from hn m.ctx l e]
  | write v value => cases h; rw [marked_write]; rfl
  | claim next =>
    cases h
    have hclaim : (m.marked l e).ctx.claim = _ := Context.claim_marks m.ctx l e
    rw [Action.answer?, hclaim]
    rfl
  | evaluate | print | keep | kept | note => cases h; rfl

theorem marked_abandonCall (caller : Context) (l' : List Bool) (e' : Bool) :
    (m.abandonCall caller).marked l' e' =
      (m.marked l e).abandonCall { caller with loops := l', earlyExit := e' } := rfl

theorem marked_leaveCall (caller : Context) (f : FnDef) (args : List Expr) (l' : List Bool)
    (e' : Bool) :
    (m.leaveCall caller f args).marked l' e' =
      (m.marked l e).leaveCall { caller with loops := l', earlyExit := e' } f args := by
  have hback := marked_copyBack ⟨caller, m.world⟩ l' e' f args m.ctx f.outs
  have hlocals : (m.marked l e).ctx.locals = m.ctx.locals := rfl
  unfold leaveCall
  rw [show (⟨{ caller with loops := l', earlyExit := e' }, (m.marked l e).world⟩ : Machine) =
    (⟨caller, m.world⟩ : Machine).marked l' e' from rfl,
    copyBack_callee _ f args hlocals, ← hback]
  rfl

theorem marked_offering (program : ProgramId) (rest : List Stmt) :
    (Eval.offering program rest m).marked l e = Eval.offering program rest (m.marked l e) := by
  have hoffer : (m.marked l e).ctx.offer _ = _ :=
    Context.offer_marks m.ctx (Eval.following program rest) l e
  rw [Eval.offering, Eval.offering, modifyCtx, modifyCtx, hoffer]
  rfl

theorem marked_breakOut {span : Span} {r : Except EvalError Unit}
    (h : m.breakOut span = (r, m')) : m'.marked l e = m.marked l e := by
  unfold breakOut Context.breakLoop at h
  split at h
  · next heq => split at heq <;> cases heq; cases h; rfl
  · cases h; rfl

end Marked

theorem bindArguments_marks (lookup : Var → Value) (callee : Context) (l : List (String × Expr)) :
    (bindArguments lookup callee l).2.loops = callee.loops ∧
      (bindArguments lookup callee l).2.earlyExit = callee.earlyExit := by
  have hcontrol := Context.control_eq_iff.mp (bindArguments_control lookup l callee)
  exact ⟨hcontrol.2.2.1, hcontrol.2.2.2.2.2.1⟩

theorem leaveBlock_enterBlock (m : Machine) (b : Linked Block) :
    (m.enterBlock b).leaveBlock b = m := by
  simp only [enterBlock, leaveBlock, modifyCtx, Context.pushFunctions, Context.popFunctions,
    Context.pushOffer, Context.popOffer, List.tail_cons]
  split <;> rfl

end Machine

namespace Eval

open Machine

namespace Outcome

@[simp] theorem result_absorbBreak (o : Outcome) : o.absorbBreak.result = o.result := by
  cases o <;> rfl

theorem eq_error_of_result {o : Outcome} {e : EvalError} (h : o.result = .error e) :
    o = .error e := by
  cases o with
  | error e' => cases h; rfl
  | _ => cases h

end Outcome

/-! ## Signals as marks -/

/-- The loop marks of a context that is in the loops `l` when the signal is pending. -/
def Signal.loops : Signal → List Bool → List Bool
  | .broke, _ :: outer => true :: outer
  | _, l => l

/-- The early-exit mark when the signal is pending. -/
def Signal.exits : Signal → Bool
  | .exited => true
  | _ => false

/-- The signal is pending on the context, which is in the loops `l`. Of these the innermost one was
    not broken before, and a break is pending only if there is one. -/
structure Pending (l : List Bool) (signal : Signal) (c : Context) : Prop where
  loops : c.loops = signal.loops l
  exits : c.earlyExit = signal.exits
  whole : l.head? ≠ some true
  inside : signal = .broke → l ≠ []

namespace Pending

variable {l : List Bool} {signal : Signal} {c c' : Context}

/-- Only the marks of the context matter. -/
theorem congr (h : Pending l signal c) (hl : c'.loops = c.loops)
    (he : c'.earlyExit = c.earlyExit) : Pending l signal c' :=
  ⟨hl.trans h.loops, he.trans h.exits, h.whole, h.inside⟩

theorem of_control (h : Pending l signal c) (hc : c'.control = c.control) :
    Pending l signal c' := by
  obtain ⟨-, -, hl, -, -, he, -⟩ := Context.control_eq_iff.mp hc
  exact h.congr hl he

theorem running (h : Pending l .normal c) : c.isTerminated = false := by
  unfold Context.isTerminated
  rw [h.loops, h.exits]
  have hwhole := h.whole
  show l.head?.getD false = false
  cases hl : l.head? with
  | none => rfl
  | some b =>
    cases b with
    | false => rfl
    | true => exact absurd hl hwhole

theorem terminated (h : Pending l signal c) (hs : signal ≠ .normal) : c.isTerminated = true := by
  unfold Context.isTerminated
  rw [h.loops, h.exits]
  cases signal with
  | normal => exact absurd rfl hs
  | exited => rfl
  | broke =>
    cases l with
    | nil => exact absurd rfl (h.inside rfl)
    | cons b outer => rfl

theorem enterLoop (h : Pending l .normal c) : Pending (false :: l) .normal c.enterLoop :=
  ⟨congrArg (false :: ·) h.loops, h.exits, by simp, nofun⟩

theorem exitLoop {o : Outcome} (h : Pending (false :: l) o.signal c) (hl : l.head? ≠ some true) :
    Pending l o.absorbBreak.signal c.exitLoop := by
  have hloops : c.exitLoop.loops = l := by
    show c.loops.tail = l
    rw [h.loops]
    cases o <;> rfl
  have hexits := h.exits
  cases o with
  | normal | broke | error => exact ⟨hloops, hexits, hl, nofun⟩
  | exited => exact ⟨hloops, hexits, hl, nofun⟩

theorem setExit (h : Pending l .normal c) : Pending l .exited c.setExit :=
  ⟨h.loops, rfl, h.whole, nofun⟩

theorem breakLoop {b : Bool} {outer : List Bool} (h : Pending (b :: outer) .normal c) :
    c.breakLoop.1 = true ∧ Pending (b :: outer) .broke c.breakLoop.2 := by
  have hloops : c.loops = b :: outer := h.loops
  unfold Context.breakLoop
  rw [hloops]
  exact ⟨rfl, rfl, h.exits, h.whole, nofun⟩

theorem breakLoop_nil (h : Pending [] .normal c) : c.breakLoop.1 = false := by
  have hloops : c.loops = [] := h.loops
  unfold Context.breakLoop
  rw [hloops]

theorem offering {m : Machine} (h : Pending l signal m.ctx) (program : ProgramId)
    (rest : List Stmt) : Pending l signal (Eval.offering program rest m).ctx := by
  unfold Eval.offering Machine.modifyCtx Context.offer
  dsimp only
  split
  · exact h
  · exact h.congr rfl rfl

/-- The body of a script function starts in no loop and not stopped. -/
theorem enterCall {m m' : Machine} {f : FnDef} {args : List Expr} {r : Except ArithError Unit}
    (he : m.enterCall f args = (r, m')) (hw : m.world.Blank) : Pending [] .normal m'.ctx := by
  obtain ⟨hl, hx⟩ := hw.fresh m.ctx.session
  cases he
  obtain ⟨hbl, hbx⟩ := bindArguments_marks
    (Machine.lookup { m with world := (m.world.obtain m.ctx.session).2 })
    { (m.world.obtain m.ctx.session).1 with depth := m.ctx.depth + 1 } (f.params.zip args)
  exact ⟨hbl.trans hl, hbx.trans hx, nofun, nofun⟩

/-- A neutral request leaves the marks alone. -/
theorem answer {m m' : Machine} {a a₁ : Action} (h : Pending l signal m.ctx) (hn : Neutral a)
    (ha : a.answer? m = some (a₁, m')) : Pending l signal m'.ctx := by
  have hself : some (a₁, m') = some (a₁, m'.marked m.ctx.loops m.ctx.earlyExit) :=
    ha.symm.trans (answer?_marked (m := m) hn ha)
  have hm' := (Prod.mk.inj (Option.some.inj hself)).2
  rw [hm']
  exact h.congr rfl rfl

theorem unmarked {m : Machine} (h : Pending [] .normal m.ctx) : m.marked [] false = m := by
  have hl : m.ctx.loops = [] := h.loops
  have he : m.ctx.earlyExit = false := h.exits
  rw [← hl, ← he]
  exact m.marked_self

/-- A context that goes on has nothing pending. -/
theorem normal_of_running (h : Pending l signal c) (hc : c.isTerminated = false) :
    signal = .normal := by
  cases signal with
  | normal => rfl
  | broke | exited =>
    rw [h.terminated nofun] at hc
    cases hc

end Pending

/-! ## Nothing runs on a terminated context -/

/-- The job looks at the marks before it does anything. -/
def Job.looksFirst : Job → Bool
  | .block _ | .stmts .. | .whileLoop .. | .times .. | .forEach .. => true
  | _ => false

theorem Ends.idle {env : Env} {j : Job} {m m' : Machine} {r : Except EvalError Unit}
    (h : Ends env j m r m') (hj : j.looksFirst = true) (ht : m.ctx.isTerminated = true) :
    r = .ok () ∧ m' = m := by
  have stmts_idle {program : ProgramId} {l : List Stmt} {m m' : Machine}
      {r : Except EvalError Unit} (h : Ends env (.stmts program l) m r m')
      (ht : m.ctx.isTerminated = true) : r = .ok () ∧ m' = m := by
    cases h with
    | stmtsNil | stmtsStop => exact ⟨rfl, rfl⟩
    | stmtsError hgo | stmtsNext hgo => rw [ht] at hgo; cases hgo
  cases h with
  | block hs =>
    obtain ⟨rfl, rfl⟩ := stmts_idle hs (by simpa [Context.isTerminated] using ht)
    exact ⟨rfl, leaveBlock_enterBlock m _⟩
  | stmtsNil | stmtsStop | whileStop | timesStop | forEachNil | forEachStop => exact ⟨rfl, rfl⟩
  | stmtsError hgo | stmtsNext hgo | whileError hgo | whileFalse hgo | whileBodyError hgo
  | whileNext hgo | timesError hgo | timesNext hgo | forEachError hgo | forEachNext hgo =>
    rw [ht] at hgo
    cases hgo
  | _ => cases hj

theorem Ends.of_idle (env : Env) {j : Job} {m : Machine} (hj : j.looksFirst = true)
    (ht : m.ctx.isTerminated = true) : Ends env j m (.ok ()) m := by
  have stmts_idle (program : ProgramId) (l : List Stmt) {m : Machine}
      (ht : m.ctx.isTerminated = true) : Ends env (.stmts program l) m (.ok ()) m := by
    cases l with
    | nil => exact .stmtsNil
    | cons s rest => exact .stmtsStop ht
  cases j with
  | block b =>
    have hends : Ends env (.block b) m (.ok ()) ((m.enterBlock b).leaveBlock b) :=
      .block (stmts_idle _ _ (by simpa [Context.isTerminated] using ht))
    rwa [leaveBlock_enterBlock] at hends
  | stmts program l => exact stmts_idle program l ht
  | whileLoop condition body => exact .whileStop ht
  | times count body => exact .timesStop (.inr ht)
  | forEach v items body =>
    cases items with
    | nil => exact .forEachNil
    | cons item rest => exact .forEachStop ht
  | _ => cases hj

end Eval

end TierScript
