import TierScript.Proofs.Host.Library
import TierScript.Proofs.Run.Simulation

/-!
# What a run of a library depends on

`Machine.view` is what a run shows of a machine: its context, the variables of its session and the
output. Which set holds these variables, the variables of other sessions, the global variables, the
idle contexts of the pool and what calls remember are left out.

* `lockstep`: settled runs on machines with the same view give the same answer, with whatever fuel,
  and leave machines with the same view.
-/

namespace TierScript

/-! ## Views -/

/-- The context without the number of its set of session variables, these variables, and the
    output. -/
structure View where
  ctx : Context
  vars : Vars
  output : List String

/-- What a run shows of a machine. -/
def Machine.view (m : Machine) : View :=
  ⟨{ m.ctx with store := 0 }, m.world.stores.table m.ctx.store, m.world.output⟩

/-- An answer, with what is shown of the machine that is left. -/
def viewed {α : Type} (answer : α × Machine) : α × View := (answer.1, answer.2.view)

namespace View

/-- The values of the variables that are not global. -/
def lookup (view : View) (v : Var) : Value :=
  match v.tier with
  | .loc => view.ctx.locals.get v.name
  | .session => view.vars.get v.name
  | .global => .null

/-- Gives a variable a value. -/
def write (view : View) (v : Var) (value : Value) : View :=
  match v.tier with
  | .loc => { view with ctx := view.ctx.setLocal v.name value }
  | .session => { view with vars := view.vars.set v.name value }
  | .global => view

/-- Where the body of a script function starts. -/
def enterCall (view : View) (f : FnDef) (args : List Expr) : Except ArithError Unit × View :=
  let bound := Machine.bindArguments view.lookup
    { session := view.ctx.session, store := 0, depth := view.ctx.depth + 1 } (f.params.zip args)
  (bound.1, { view with ctx := bound.2 })

end View

/-- A change of a context that has nothing to do with the set of session variables. -/
def Context.Blind (f : Context → Context) : Prop :=
  ∀ c store, f { c with store } = { f c with store }

namespace Context

theorem blind_enterLoop : Blind enterLoop := fun _ _ => rfl

theorem blind_exitLoop : Blind exitLoop := fun _ _ => rfl

theorem blind_setExit : Blind setExit := fun _ _ => rfl

theorem blind_clearExit : Blind clearExit := fun _ _ => rfl

theorem blind_offer (block : Option (Linked Block)) : Blind fun c => c.offer block := by
  rintro ⟨_, _, _, _, _, _ | _, _, _⟩ store <;> rfl

theorem blind_claim : Blind fun c => c.claim.2 := by
  rintro ⟨_, _, _, _, _, _ | ⟨⟨_ | _, _⟩, _⟩, _, _⟩ store <;> rfl

theorem blind_breakLoop : Blind fun c => c.breakLoop.2 := by
  rintro ⟨_, _, _, _ | _, _, _, _, _⟩ store <;> rfl

theorem breakLoop_fst (c : Context) : c.breakLoop.1 = c.inLoop := by
  unfold breakLoop inLoop
  split <;> simp_all

theorem blind_enterBlock (b : Linked Block) :
    Blind fun c => (c.pushFunctions b.program b.node.functions).pushOffer := by
  intro c store
  unfold pushFunctions pushOffer
  split <;> rfl

theorem blind_leaveBlock (b : Linked Block) :
    Blind fun c => c.popOffer.popFunctions b.node.functions := by
  intro c store
  unfold popFunctions popOffer
  split <;> rfl

end Context

namespace Machine

open Context

variable {m m' : Machine}

theorem view_modifyCtx {f : Context → Context} (hf : Blind f) (m : Machine) :
    (m.modifyCtx f).view = { m.view with ctx := f m.view.ctx } := by
  have hstore : (f m.ctx).store = m.ctx.store := by
    have heta := congrArg Context.store (hf m.ctx m.ctx.store)
    exact heta
  unfold view
  rw [modifyCtx_ctx, modifyCtx_world, hstore, ← hf]

theorem view_modifyCtx_eq (h : m.view = m'.view) {f : Context → Context} (hf : Blind f) :
    (m.modifyCtx f).view = (m'.modifyCtx f).view := by
  rw [view_modifyCtx hf, view_modifyCtx hf, h]

theorem Recalls.view (h : m.Recalls m') : m'.view = m.view := by
  obtain ⟨_, _, _, rfl⟩ := h
  rfl

theorem view_write (h : m.Backed) (v : Var) (value : Value) :
    (m.write v value).view = m.view.write v value := by
  unfold Machine.write Context.write View.write
  cases v.tier with
  | loc => rfl
  | session =>
    unfold view
    dsimp only
    rw [Stores.table_update_self _ h]
  | global => rfl

/-- Machines with the same view stay such when a variable is written. -/
theorem view_write_eq (h : m.view = m'.view) (hm : m.Backed) (hm' : m'.Backed) (v : Var)
    (value : Value) : (m.write v value).view = (m'.write v value).view := by
  rw [view_write hm, view_write hm', h]

theorem viewed_breakOut (h : m.view = m'.view) (span : Span) :
    viewed (m.breakOut span) = viewed (m'.breakOut span) := by
  have hloops : m.ctx.loops = m'.ctx.loops := congrArg (fun view : View => view.ctx.loops) h
  unfold breakOut Context.breakLoop
  rw [hloops]
  cases m'.ctx.loops with
  | nil => exact Prod.ext rfl h
  | cons _ outer =>
    have hbroken : Blind fun c => { c with loops := true :: outer } := fun _ _ => rfl
    exact Prod.ext rfl (view_modifyCtx_eq h hbroken)

/-! ## Expressions -/

theorem lookup_view {v : Var} (h : v.tier ≠ .global) (m : Machine) :
    m.lookup v = m.view.lookup v := by
  unfold Machine.lookup Context.read View.lookup
  cases htier : v.tier with
  | loc => rfl
  | session => rfl
  | global => exact absurd htier h

theorem eval_view {e : Expr} (h : Spared e.reads) (m : Machine) :
    e.eval m.lookup = e.eval m.view.lookup :=
  Expr.eval_congr fun v hv => lookup_view (h v hv) m

/-! ## Calls of script functions -/

theorem bindArguments_store (lookup : Var → Value) (bindings : List (String × Expr))
    (callee : Context) (store : StoreId) :
    bindArguments lookup { callee with store } bindings =
      ((bindArguments lookup callee bindings).1,
        { (bindArguments lookup callee bindings).2 with store }) := by
  induction bindings generalizing callee with
  | nil => rfl
  | cons binding rest ih =>
    obtain ⟨param, arg⟩ := binding
    rw [bindArguments, bindArguments]
    cases arg.eval lookup with
    | ok v => exact ih (callee.setLocal param v)
    | error e => rfl

theorem bindArguments_congr {f g : Var → Value} {bindings : List (String × Expr)}
    (h : ∀ b ∈ bindings, b.2.eval f = b.2.eval g) (callee : Context) :
    bindArguments f callee bindings = bindArguments g callee bindings := by
  induction bindings generalizing callee with
  | nil => rfl
  | cons binding rest ih =>
    obtain ⟨hfirst, hrest⟩ := List.forall_mem_cons.mp h
    rw [bindArguments, bindArguments, hfirst]
    cases binding.2.eval g with
    | ok v => exact ih hrest _
    | error e => rfl

theorem viewed_enterCall (h : m.Sound) {f : FnDef} {args : List Expr}
    (hargs : Spared (args.flatMap Expr.reads)) :
    viewed (m.enterCall f args) = m.view.enterCall f args := by
  obtain ⟨hctx, hstores⟩ := h.obtain
  -- The caller shows the same before and after the context was taken.
  have hview : Machine.view { m with world := (m.world.obtain m.ctx.session).2 } = m.view := by
    unfold view
    rw [hstores]
    rfl
  have hbound (callee : Context) : bindArguments
      (Machine.lookup { m with world := (m.world.obtain m.ctx.session).2 }) callee
        (f.params.zip args) = bindArguments m.view.lookup callee (f.params.zip args) := by
    refine bindArguments_congr (fun b hb => ?_) callee
    have hspared : Spared b.2.reads := fun v hv =>
      hargs v (List.mem_flatMap.mpr ⟨b.2, (List.of_mem_zip hb).2, hv⟩)
    rw [eval_view hspared, hview]
  let callee : Context := { session := m.ctx.session, store := 0, depth := m.ctx.depth + 1 }
  have hblind := bindArguments_store m.view.lookup (f.params.zip args) callee m.ctx.store
  have hshown : Machine.view ⟨(bindArguments m.view.lookup { callee with store := m.ctx.store }
      (f.params.zip args)).2, (m.world.obtain m.ctx.session).2⟩ =
      { m.view with ctx := (bindArguments m.view.lookup callee (f.params.zip args)).2 } := by
    have hstore : (bindArguments m.view.lookup callee (f.params.zip args)).2.store = 0 :=
      (Context.control_eq_iff.mp (bindArguments_control ..)).2.1
    rw [hblind]
    unfold view
    rw [hstores, ← hstore]
    rfl
  unfold enterCall View.enterCall viewed
  dsimp only
  rw [hbound, hctx]
  have hresult := congrArg Prod.fst hblind
  exact Prod.ext hresult hshown

/-- What the caller shows while the callee, which uses the same set, has come to the machine `m`. -/
theorem view_caller {caller : Context} (h : m.ctx.store = caller.store) :
    (⟨caller, m.world⟩ : Machine).view = { m.view with ctx := { caller with store := 0 } } := by
  unfold view
  rw [h]

theorem view_copyBack {f : FnDef} {args : List Expr} {callee callee' : Context} {outs : List Nat}
    (hlocals : callee.locals = callee'.locals) (h : m.view = m'.view) (hm : m.Backed)
    (hm' : m'.Backed) :
    (copyBack f args callee m outs).view = (copyBack f args callee' m' outs).view := by
  induction outs generalizing m m' with
  | nil => exact h
  | cons position rest ih =>
    rw [copyBack, copyBack, hlocals]
    split
    · exact ih (view_write_eq h hm hm' _ _) (hm.write _ _) (hm'.write _ _)
    · exact ih h hm hm'

/-! ## Requests -/

theorem answer_view {a a₁ : Action} {m₁ : Machine} {claimed : Linked Block → Prop}
    (hplain : a.Plain claimed) (h : m.view = m'.view) (hm : m.Backed) (hm' : m'.Backed)
    (ha : a.answer? m = some (a₁, m₁)) :
    ∃ m₁', a.answer? m' = some (a₁, m₁') ∧ m₁.view = m₁'.view := by
  have hctx : m.ctx = { m'.ctx with store := m.ctx.store } := by
    have hshown := congrArg (fun view : View => { view.ctx with store := m.ctx.store }) h
    exact hshown
  cases a with
  | done | fail | run | runApart | spawn => cases ha
  | keep | kept => exact hplain.elim
  | evaluate e next =>
    cases ha
    refine ⟨m', ?_, h⟩
    rw [Action.answer?, eval_view hplain.1, eval_view hplain.1, h]
  | write v value next => cases ha; exact ⟨_, rfl, view_write_eq h hm hm' v value⟩
  | look next =>
    cases ha
    have hlook : next m.ctx = next m'.ctx := by
      rw [hctx]
      exact hplain.1 m'.ctx m.ctx.store
    refine ⟨m', ?_, h⟩
    rw [Action.answer?, hlook]
  | claim next =>
    cases ha
    have hblock : m.ctx.claim.1 = m'.ctx.claim.1 := by
      rw [Eval.claim_fst, Eval.claim_fst, hctx]
      rfl
    refine ⟨_, ?_, view_modifyCtx_eq h blind_claim⟩
    rw [Action.answer?, hblock]
    rfl
  | breakLoop next =>
    cases ha
    have hbroken : m.ctx.breakLoop.1 = m'.ctx.breakLoop.1 := by
      rw [breakLoop_fst, breakLoop_fst, hctx]
      rfl
    refine ⟨_, ?_, view_modifyCtx_eq h blind_breakLoop⟩
    rw [Action.answer?, hbroken]
    rfl
  | enterLoop next => cases ha; exact ⟨_, rfl, view_modifyCtx_eq h blind_enterLoop⟩
  | exitLoop next => cases ha; exact ⟨_, rfl, view_modifyCtx_eq h blind_exitLoop⟩
  | setExit next => cases ha; exact ⟨_, rfl, view_modifyCtx_eq h blind_setExit⟩
  | clearExit next => cases ha; exact ⟨_, rfl, view_modifyCtx_eq h blind_clearExit⟩
  | print line next =>
    cases ha
    refine ⟨_, rfl, ?_⟩
    exact congrArg (fun view : View => { view with output := line :: view.output }) h
  | note e next => cases ha; exact ⟨_, rfl, h⟩

end Machine

/-! ## Two runs side by side -/

namespace Eval

open Machine

variable {lib : Library} {env env' : Env} {j j' : Job} {m m' m₁ m₁' : Machine}

theorem Settled.backed (h : Settled lib env j m) : m.Backed := h.apart.made _ _ h.sound.current

theorem Settled.backed_after {r : Except EvalError Unit} (h : Settled lib env j m)
    (he : Ends env j m r m') : m'.Backed := by
  unfold Backed
  rw [he.restores.1.store, (he.confined h.sound).size]
  exact h.backed

/-- Settled runs on both sides, on machines with the same view. -/
def settledSides (lib : Library) : Sides where
  left := Settled lib
  right := Settled lib
  env := Eq
  program := Eq
  action := Eq
  machine m m' := m.view = m'.view

/-- A settled job reads no global variables. -/
theorem Settled.spared (h : Settled lib env j m) : Spared j.reads := by
  have hspares := h.spares
  have hstands := h.aligned.stands
  cases j with
  | stmt program s =>
    have hreads := Library.spares hstands.1.here
    cases s with
    | assign => rwa [Stmt.reads] at hreads
    | ifElse condition body otherwise span =>
      rw [Stmt.reads] at hreads
      exact fun v hv => hreads v (List.mem_append_left _ hv)
    | forLoop dest src body span =>
      rw [Stmt.reads, ← List.append_assoc] at hreads
      exact fun v hv => hreads v (List.mem_append_left _ hv)
    | _ => exact fun _ hv => absurd hv List.not_mem_nil
  | whileLoop condition body => exact hspares
  | script f args => exact hspares
  | _ => exact fun _ hv => absurd hv List.not_mem_nil

/-- The body of a function uses the same set of session variables as the caller. -/
theorem Settled.callee_store {f : Linked FnDef} {args : List Expr}
    (h : Settled lib env (.script f args) m) (he : Enters env (.script f args) m env' j' m') :
    m'.ctx.store = m.ctx.store := by
  cases he with
  | body hdeep hcall =>
    have hshares := h.sound.shares f.node args
    rwa [hcall] at hshares

/-- The callers of two calls that correspond have the same view, whatever the callees did. -/
theorem caller_view (h : (settledSides lib).Abreast env j m env' j' m')
    (hs : m₁.ctx.store = m.ctx.store) (hs' : m₁'.ctx.store = m'.ctx.store)
    (hm : m₁.view = m₁'.view) :
    (⟨m.ctx, m₁.world⟩ : Machine).view = (⟨m'.ctx, m₁'.world⟩ : Machine).view := by
  rw [view_caller hs, view_caller hs', hm]
  exact congrArg (fun view : View => { m₁'.view with ctx := view.ctx }) h.machine

theorem agree_settledSides (lib : Library) : (settledSides lib).Agree where
  enters_left := Settled.enters
  enters_right := Settled.enters
  hold := by rintro env _ p _ span rfl rfl; rfl
  maxCallDepth := by rintro env _ rfl; rfl
  isTerminated h := congrArg (fun view : View => view.ctx.isTerminated) h
  offerClaimed h := congrArg (fun view : View => view.ctx.offerClaimed) h
  depth h := congrArg (fun view : View => view.ctx.depth) h
  lookup h v hv := by
    have htier := h.left.spared v hv
    rw [lookup_view htier, lookup_view htier, h.machine]
  enterBlock := by
    rintro m m' p _ b h rfl
    exact view_modifyCtx_eq h (Context.blind_enterBlock ⟨p, b⟩)
  leaveBlock h := view_modifyCtx_eq h (Context.blind_leaveBlock ⟨_, _⟩)
  offering := by
    rintro m m' p _ rest h rfl
    exact view_modifyCtx_eq h (Context.blind_offer (following p rest))
  enterLoop h := view_modifyCtx_eq h Context.blind_enterLoop
  exitLoop h := view_modifyCtx_eq h Context.blind_exitLoop
  setExit h := view_modifyCtx_eq h Context.blind_setExit
  breakOut h := by
    obtain ⟨hresult, hview⟩ := Prod.mk.inj (viewed_breakOut h _)
    exact .of_eq hresult hview
  note h := h
  write h := view_write_eq h.machine h.left.backed h.right.backed _ _
  resolve {env p c m env' p' m'} h := by
    obtain rfl : env = env' := h.env
    obtain rfl : p = p' := by cases h.job with | stmt hp => exact hp
    have hmeans := h.left.aligned.resolve_eq
    have hmeans' := h.right.aligned.resolve_eq
    have hmeaning : meaning env m.ctx c = meaning env m'.ctx c :=
      congrArg (fun view : View => meaning env view.ctx c) h.machine
    have hrecalls : m.Recalls (m.resolve env p c).2 := resolve_recalls rfl
    have hrecalls' : m'.Recalls (m'.resolve env p c).2 := resolve_recalls rfl
    exact .of_eq (fun _ => rfl) (fun _ => rfl) (hmeans.trans (hmeaning.trans hmeans'.symm))
      (hrecalls.view.trans (h.machine.trans hrecalls'.view.symm))
  resolveModuleCall {env p module c m env' p' m'} h := by
    obtain rfl : env = env' := h.env
    obtain rfl : p = p' := by cases h.job with | stmt hp => exact hp
    have hmeans := resolveModuleCall_eq_meaning h.left.aligned.indexed p module c
    have hmeans' := resolveModuleCall_eq_meaning h.right.aligned.indexed p module c
    have hrecalls : m.Recalls (m.resolveModuleCall env p module c).2 :=
      resolveModuleCall_recalls rfl
    have hrecalls' : m'.Recalls (m'.resolveModuleCall env p module c).2 :=
      resolveModuleCall_recalls rfl
    exact .of_eq (fun _ => rfl) (fun _ => rfl) (hmeans.trans hmeans'.symm)
      (hrecalls.view.trans (h.machine.trans hrecalls'.view.symm))
  enterCall {env p f args m env' p' m'} h _ := by
    refine Prod.mk.inj ((viewed_enterCall h.left.sound h.left.spares).trans ?_)
    rw [h.machine, ← viewed_enterCall h.right.sound h.right.spares]
    rfl
  abandonCall h hs hs' hm :=
    caller_view h (hs.trans (h.left.sound.shares _ _)) (hs'.trans (h.right.sound.shares _ _)) hm
  leaveCall h hin hends hin' hends' hm := by
    have hs := hends.restores.1.store.trans (h.left.callee_store hin)
    have hs' := hends'.restores.1.store.trans (h.right.callee_store hin')
    have hbacked := (h.left.enters hin).backed_after hends
    have hbacked' := (h.right.enters hin').backed_after hends'
    rw [Backed, hs] at hbacked
    rw [Backed, hs'] at hbacked'
    have hlocals := congrArg (fun view : View => view.ctx.locals) hm
    exact view_copyBack hlocals (caller_view h hs hs' hm) hbacked hbacked'
  answer {env name a m env' a' m' a₁ m₁} h ha := by
    obtain rfl : a = a' := by cases h.job with | action haction => exact haction
    obtain ⟨claimed, hplain⟩ := h.left.spares
    obtain ⟨m₁', ha', hview⟩ := answer_view hplain h.machine h.left.backed h.right.backed ha
    exact ⟨a₁, m₁', ha', rfl, hview⟩
  waiting {env name a m env' a' m'} h ha := by
    obtain rfl : a = a' := by cases h.job with | action haction => exact haction
    exact .refl (fun _ => rfl) (fun _ => rfl) ha
  apart h := by
    obtain ⟨claimed, hplain⟩ := h.left.spares
    exact hplain.elim
  task h := by
    obtain ⟨claimed, hplain⟩ := h.left.spares
    exact hplain.elim

/-- Settled runs on machines with the same view have the same answer, and leave machines with the
    same view. -/
theorem lockstep (h : Settled lib env j m) (h' : Settled lib env j m') (hview : m.view = m'.view)
    (n : Nat) : (settledSides lib).Meet (j.run env n m) (j.run env n m') := by
  have hjob : (settledSides lib).Jobs j j := .refl (fun _ => rfl) (fun _ => rfl) j
  exact (agree_settledSides lib).meet n ⟨h, h', rfl, hjob, hview⟩

end Eval

end TierScript
