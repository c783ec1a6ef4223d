import TierScript.Proofs.Host.Scoping
import TierScript.Proofs.Run.Simulation

/-!
# Copies of a program

A text that is parsed twice makes two programs, which differ in their numbers only. What a call
remembers is kept under the number of its program, so the two programs remember different things.
Here a run of one is compared with a run of the other.

* `Machine.shadow`: a machine without numbers of programs, without what calls remember, and without
  the drawer and the log.
* `Job.Alike`: the same job, but for the numbers of programs. A host function is `Uniform` if it
  does the same for copies of a block.
* `lockstep_copies`: runs of alike jobs in scope, on machines with the same shadow, give the same
  answer, with whatever fuel, and leave machines with the same shadow.
-/

namespace TierScript

/-! ## Contexts and machines without numbers -/

/-- A part of a program, without the number of the program. -/
def Linked.unnumbered {α : Type} (x : Linked α) : Linked α := ⟨0, x.node⟩

/-- An offer, without the number of the program. -/
def Offer.unnumbered (o : Offer) : Offer := { o with block := o.block.map Linked.unnumbered }

/-- A context, without the numbers of programs. -/
def Context.unnumbered (c : Context) : Context :=
  { c with lexical := c.lexical.map Linked.unnumbered, offers := c.offers.map Offer.unnumbered }

/-- A machine without numbers of programs, without what calls remember, and without the drawer and
    the log. -/
def Machine.shadow (m : Machine) : Machine where
  ctx := m.ctx.unnumbered
  world := { stores := m.world.stores, pool := m.world.pool, output := m.world.output }

/-- An answer, with the shadow of the machine that is left. -/
def shadowed {α : Type} (answer : α × Machine) : α × Machine := (answer.1, answer.2.shadow)

namespace Context

variable (c : Context)

theorem unnumbered_offer (block : Option (Linked Block)) :
    (c.offer block).unnumbered = c.unnumbered.offer (block.map Linked.unnumbered) := by
  obtain ⟨_, _, _, _, _, _ | _, _, _⟩ := c <;> rfl

theorem unnumbered_claim : c.claim.2.unnumbered = c.unnumbered.claim.2 := by
  obtain ⟨_, _, _, _, _, _ | ⟨⟨_ | _, _⟩, _⟩, _, _⟩ := c <;> rfl

theorem unnumbered_claim_fst : c.claim.1.map Linked.unnumbered = c.unnumbered.claim.1 := by
  obtain ⟨_, _, _, _, _, _ | ⟨⟨_ | _, _⟩, _⟩, _, _⟩ := c <;> rfl

theorem unnumbered_breakLoop : c.breakLoop.2.unnumbered = c.unnumbered.breakLoop.2 := by
  obtain ⟨_, _, _, _ | _, _, _, _, _⟩ := c <;> rfl

theorem unnumbered_breakLoop_fst : c.breakLoop.1 = c.unnumbered.breakLoop.1 := by
  obtain ⟨_, _, _, _ | _, _, _, _, _⟩ := c <;> rfl

theorem unnumbered_offerClaimed : c.offerClaimed = c.unnumbered.offerClaimed := by
  obtain ⟨_, _, _, _, _, _ | _, _, _⟩ := c <;> rfl

theorem unnumbered_enterBlock (program : ProgramId) (functions : List FnDef) :
    ((c.pushFunctions program functions).pushOffer).unnumbered =
      (c.unnumbered.pushFunctions 0 functions).pushOffer := by
  unfold pushFunctions
  split <;> rfl

theorem unnumbered_leaveBlock (functions : List FnDef) :
    (c.popOffer.popFunctions functions).unnumbered =
      c.unnumbered.popOffer.popFunctions functions := by
  unfold popFunctions
  obtain ⟨_, _, _, _, _ | _, _ | _, _, _⟩ := c <;> split <;> rfl

theorem unnumbered_findFunction? (name : String) (arity : Nat) :
    (c.findFunction? name arity).map Linked.unnumbered =
      c.unnumbered.findFunction? name arity := by
  unfold findFunction?
  show _ = (c.lexical.map Linked.unnumbered).findSome? _
  induction c.lexical with
  | nil => rfl
  | cons table tables ih =>
    rw [List.map_cons, List.findSome?_cons, List.findSome?_cons, ← ih]
    dsimp only [Linked.unnumbered]
    cases TierScript.findFunction? table.node name arity <;> rfl

end Context

namespace Machine

variable {m m' : Machine}

/-- Changes of the context that differ in the numbers of programs only. -/
theorem shadow_modifyCtx_of (h : m.shadow = m'.shadow) {f f' : Context → Context}
    (g : Context → Context) (hf : ∀ c, (f c).unnumbered = g c.unnumbered)
    (hf' : ∀ c, (f' c).unnumbered = g c.unnumbered) :
    (m.modifyCtx f).shadow = (m'.modifyCtx f').shadow := by
  have hctx : m.ctx.unnumbered = m'.ctx.unnumbered := congrArg Machine.ctx h
  have hworld : m.shadow.world = m'.shadow.world := congrArg Machine.world h
  have hchanged : (f m.ctx).unnumbered = (f' m'.ctx).unnumbered := by rw [hf, hf', hctx]
  exact Machine.mk.injEq .. ▸ ⟨hchanged, hworld⟩

/-- A change of the context that has nothing to do with the numbers of programs. -/
theorem shadow_modifyCtx (h : m.shadow = m'.shadow) (f : Context → Context)
    (hf : ∀ c, (f c).unnumbered = f c.unnumbered) :
    (m.modifyCtx f).shadow = (m'.modifyCtx f).shadow := shadow_modifyCtx_of h f hf hf

theorem Recalls.shadow (h : m.Recalls m') : m'.shadow = m.shadow := by
  obtain ⟨_, _, _, rfl⟩ := h
  rfl

theorem shadow_lookup (m : Machine) : m.shadow.lookup = m.lookup := rfl

theorem lookup_eq (h : m.shadow = m'.shadow) : m.lookup = m'.lookup := by
  rw [← shadow_lookup, h, shadow_lookup]

theorem shadow_write (m : Machine) (v : Var) (value : Value) :
    (m.write v value).shadow = m.shadow.write v value := by
  unfold write Context.write
  cases v.tier <;> rfl

theorem shadow_write_eq (h : m.shadow = m'.shadow) (v : Var) (value : Value) :
    (m.write v value).shadow = (m'.write v value).shadow := by
  rw [shadow_write, shadow_write, h]

theorem shadowed_breakOut (h : m.shadow = m'.shadow) (span : Span) :
    shadowed (m.breakOut span) = shadowed (m'.breakOut span) := by
  have hloops : m.ctx.loops = m'.ctx.loops := congrArg (fun m => m.ctx.loops) h
  unfold breakOut Context.breakLoop
  rw [hloops]
  cases m'.ctx.loops with
  | nil => exact Prod.ext rfl h
  | cons _ outer =>
    have hbroken := shadow_modifyCtx h (fun c => { c with loops := true :: outer }) fun _ => rfl
    exact Prod.ext rfl hbroken

theorem shadow_copyBack (f : FnDef) (args : List Expr) (callee : Context) (outs : List Nat)
    (m : Machine) :
    (copyBack f args callee m outs).shadow = copyBack f args callee.unnumbered m.shadow outs := by
  induction outs generalizing m with
  | nil => rfl
  | cons position rest ih =>
    rw [copyBack, copyBack]
    split
    · rw [ih, shadow_write]
      rfl
    · exact ih m

theorem shadowed_enterCall (f : FnDef) (args : List Expr) (m : Machine) :
    shadowed (m.enterCall f args) = shadowed (m.shadow.enterCall f args) := rfl

theorem shadow_abandonCall (caller : Context) (m : Machine) :
    (m.abandonCall caller).shadow = m.shadow.abandonCall caller.unnumbered := rfl

theorem shadow_leaveCall (caller : Context) (f : FnDef) (args : List Expr) (m : Machine) :
    (m.leaveCall caller f args).shadow = m.shadow.leaveCall caller.unnumbered f args := by
  have hback := shadow_copyBack f args m.ctx f.outs ⟨caller, m.world⟩
  exact congrArg (fun back : Machine =>
    { back with world := back.world.release m.ctx.unnumbered }) hback

end Machine

/-! ## Alike requests, callables and jobs -/

/-- Host functions that do the same, but for the numbers of programs. -/
inductive Action.Alike : Action → Action → Prop where
  | done : Alike .done .done
  | fail {cause} : Alike (.fail cause) (.fail cause)
  | evaluate {e next next'} : (∀ r, Alike (next r) (next' r)) →
      Alike (.evaluate e next) (.evaluate e next')
  | write {v value next next'} : Alike next next' →
      Alike (.write v value next) (.write v value next')
  | look {next next'} :
      (∀ c c', c.unnumbered = c'.unnumbered → Alike (next c) (next' c')) →
      Alike (.look next) (.look next')
  | claim {next next'} :
      (∀ b b', b.map Linked.unnumbered = b'.map Linked.unnumbered → Alike (next b) (next' b')) →
      Alike (.claim next) (.claim next')
  | run {b b' next next'} : b.node = b'.node → (∀ r, Alike (next r) (next' r)) →
      Alike (.run b next) (.run b' next')
  | enterLoop {next next'} : Alike next next' → Alike (.enterLoop next) (.enterLoop next')
  | exitLoop {next next'} : Alike next next' → Alike (.exitLoop next) (.exitLoop next')
  | breakLoop {next next'} : (∀ b, Alike (next b) (next' b)) →
      Alike (.breakLoop next) (.breakLoop next')
  | setExit {next next'} : Alike next next' → Alike (.setExit next) (.setExit next')
  | clearExit {next next'} : Alike next next' → Alike (.clearExit next) (.clearExit next')
  | print {line next next'} : Alike next next' → Alike (.print line next) (.print line next')
  | note {e next next'} : Alike next next' → Alike (.note e next) (.note e next')

/-- Callables that do the same, but for the numbers of programs. -/
inductive Callable.Alike : Callable → Callable → Prop where
  | native {name arity body} : (∀ args, (body args).Alike (body args)) →
      Alike (.native name arity body) (.native name arity body)
  | script {f f'} : f.node = f'.node → Alike (.script f) (.script f')

/-- What the callable does does not depend on the numbers of programs. -/
def Callable.Uniform (c : Callable) : Prop := c.Alike c

/-- All callables of the registry are uniform. -/
def Registry.Uniform (r : Registry) : Prop := ∀ c ∈ r.callables, c.Uniform

/-- A registry, without its generation. -/
def Registry.undated (r : Registry) : Registry := { r with generation := 0 }

theorem Registry.eq_of_undated {r r' : Registry} (h : r.undated = r'.undated) :
    r' = { r with generation := r'.generation } :=
  congrArg (fun r : Registry => { r with generation := r'.generation }) h.symm

namespace Tool

theorem alike_evaluatedAll {es : List Expr} {next : List Value → Action}
    (h : ∀ vs, (next vs).Alike (next vs)) :
    (evaluatedAll es next).Alike (evaluatedAll es next) := by
  induction es generalizing next with
  | nil => exact h []
  | cons e es ih =>
    refine .evaluate fun r => ?_
    cases r with
    | ok v => exact ih fun vs => h (v :: vs)
    | error err => exact .fail

theorem alike_afterwards {next next' : Action} (h : next.Alike next')
    (r : Except EvalError Unit) : (afterwards next r).Alike (afterwards next' r) := by
  cases r with
  | ok => exact h
  | error e => exact .fail

/-- Printing has nothing to do with the numbers of programs. -/
theorem uniform_print : print.callable.Uniform :=
  .native fun _ => alike_evaluatedAll fun _ => .print .done

/-- Running the block after the call twice does the same with a copy of the block. -/
theorem uniform_twice : twice.callable.Uniform := by
  refine .native fun args => .claim fun b b' h => ?_
  cases b with
  | none =>
    obtain rfl := Option.map_eq_none_iff.mp h.symm
    exact .done
  | some b =>
    obtain ⟨b', rfl, hb⟩ := Option.map_eq_some_iff.mp h.symm
    have hnode : b.node = b'.node := (Linked.mk.inj hb).2.symm
    exact .run hnode (alike_afterwards (.run hnode (alike_afterwards .done)))

end Tool

namespace Machine

variable {env env' : Env} {ctx ctx' : Context} {c : Call} {m m' : Machine}

/-- A call means the same in copies of a scope. -/
theorem meaning_alike (hu : env.registry.Uniform)
    (hr : env.registry.undated = env'.registry.undated) (hctx : ctx.unnumbered = ctx'.unnumbered) :
    (∃ e, meaning env ctx c = .error e ∧ meaning env' ctx' c = .error e) ∨
      ∃ a a', meaning env ctx c = .ok a ∧ meaning env' ctx' c = .ok a' ∧ a.Alike a' := by
  have hfound : (ctx.findFunction? c.name c.arity).map Linked.unnumbered =
      (ctx'.findFunction? c.name c.arity).map Linked.unnumbered := by
    rw [Context.unnumbered_findFunction?, Context.unnumbered_findFunction?, hctx]
  cases hf : ctx.findFunction? c.name c.arity with
  | some f =>
    rw [hf] at hfound
    obtain ⟨f', hf', hnode⟩ := Option.map_eq_some_iff.mp hfound.symm
    have hnode : f.node = f'.node := (Linked.mk.inj hnode).2.symm
    refine .inr ⟨.script f, .script f', ?_, ?_, .script hnode⟩
    · rw [meaning, hf]
    · rw [meaning, hf']
  | none =>
    rw [hf] at hfound
    have hf' := Option.map_eq_none_iff.mp hfound.symm
    have hsame : meaning env' ctx' c = meaning env ctx c := by
      rw [meaning, meaning, hf, hf', Registry.eq_of_undated hr]
      rfl
    cases hm : meaning env ctx c with
    | error e => exact .inl ⟨e, rfl, hsame.trans hm⟩
    | ok a =>
      refine .inr ⟨a, a, rfl, hsame.trans hm, ?_⟩
      rcases meaning_cases hm with ⟨f, hfind, -⟩ | hmem
      · cases hf.symm.trans hfind
      · exact hu a hmem

/-- A request that is answered at once is answered alike. -/
theorem answer_alike {a a' a₁ : Action} {m₁ : Machine} (h : a.Alike a')
    (hs : m.shadow = m'.shadow) (ha : a.answer? m = some (a₁, m₁)) :
    ∃ a₁' m₁', a'.answer? m' = some (a₁', m₁') ∧ a₁.Alike a₁' ∧ m₁.shadow = m₁'.shadow := by
  have hctx : m.ctx.unnumbered = m'.ctx.unnumbered := congrArg Machine.ctx hs
  cases h with
  | done | fail | run => cases ha
  | @evaluate e next next' h =>
    cases ha
    refine ⟨_, m', rfl, ?_, hs⟩
    rw [lookup_eq hs]
    exact h _
  | @write v value next next' h => cases ha; exact ⟨_, _, rfl, h, shadow_write_eq hs v value⟩
  | look h => cases ha; exact ⟨_, m', rfl, h _ _ hctx, hs⟩
  | claim h =>
    cases ha
    refine ⟨_, _, rfl, h _ _ ?_, ?_⟩
    · rw [Context.unnumbered_claim_fst, Context.unnumbered_claim_fst, hctx]
    · exact shadow_modifyCtx hs (fun c => c.claim.2) Context.unnumbered_claim
  | breakLoop h =>
    cases ha
    have hbroken : m.ctx.breakLoop.1 = m'.ctx.breakLoop.1 := by
      rw [Context.unnumbered_breakLoop_fst, hctx, ← Context.unnumbered_breakLoop_fst]
    refine ⟨_, _, rfl, hbroken ▸ h _, ?_⟩
    exact shadow_modifyCtx hs (fun c => c.breakLoop.2) Context.unnumbered_breakLoop
  | enterLoop h =>
    cases ha
    exact ⟨_, _, rfl, h, shadow_modifyCtx hs Context.enterLoop fun _ => rfl⟩
  | exitLoop h => cases ha; exact ⟨_, _, rfl, h, shadow_modifyCtx hs Context.exitLoop fun _ => rfl⟩
  | setExit h => cases ha; exact ⟨_, _, rfl, h, shadow_modifyCtx hs Context.setExit fun _ => rfl⟩
  | clearExit h =>
    cases ha
    exact ⟨_, _, rfl, h, shadow_modifyCtx hs Context.clearExit fun _ => rfl⟩
  | @print line next next' h =>
    cases ha
    refine ⟨_, _, rfl, h, ?_⟩
    exact congrArg (fun m => { m with world := m.world.print line }) hs
  | note h => cases ha; exact ⟨_, _, rfl, h, hs⟩

end Machine

namespace Eval

open Machine

/-- The same job, but for the numbers of programs. -/
inductive Job.Alike : Job → Job → Prop where
  | block {b b'} : b.node = b'.node → Alike (.block b) (.block b')
  | stmts {p p' l} : Alike (.stmts p l) (.stmts p' l)
  | stmt {p p' s} : Alike (.stmt p s) (.stmt p' s)
  | whileLoop {condition b b'} : b.node = b'.node →
      Alike (.whileLoop condition b) (.whileLoop condition b')
  | forLoop {dest d s b b' span} : b.node = b'.node →
      Alike (.forLoop dest d s b span) (.forLoop dest d s b' span)
  | times {count b b'} : b.node = b'.node → Alike (.times count b) (.times count b')
  | forEach {v items b b'} : b.node = b'.node → Alike (.forEach v items b) (.forEach v items b')
  | invoke {c c' args} : c.Alike c' → Alike (.invoke c args) (.invoke c' args)
  | script {f f' args} : f.node = f'.node → Alike (.script f args) (.script f' args)
  | action {name a a'} : a.Alike a' → Alike (.action name a) (.action name a')

/-- Alike jobs in scope, on machines with the same shadow. -/
structure Copied (programs programs' : List (Linked Block)) (env : Env) (j : Job) (m : Machine)
    (env' : Env) (j' : Job) (m' : Machine) : Prop where
  left : Aligned programs env j m
  right : Aligned programs' env' j' m'
  registry : env.registry.undated = env'.registry.undated
  config : env.config = env'.config
  uniform : env.registry.Uniform
  alike : j.Alike j'
  shadow : m.shadow = m'.shadow

variable {programs programs' : List (Linked Block)} {env env' : Env} {j j' : Job} {m m' : Machine}

/-- Runs in scope of the programs and of their copies, on machines with the same shadow. -/
def copySides (programs programs' : List (Linked Block)) : Sides where
  left := Aligned programs
  right := Aligned programs'
  env env env' := env.registry.undated = env'.registry.undated ∧ env.config = env'.config ∧
    env.registry.Uniform
  program _ _ := True
  action := Action.Alike
  machine m m' := m.shadow = m'.shadow

theorem callables_of_alike {c c' : Callable} (h : c.Alike c') :
    (copySides programs programs').Callables c c' := by
  cases h with
  | native hbody => exact .native hbody
  | @script f f' hnode =>
    obtain ⟨p, node⟩ := f
    obtain rfl : node = f'.node := hnode
    exact .script trivial

theorem Job.Alike.jobs (h : j.Alike j') : (copySides programs programs').Jobs j j' := by
  cases h with
  | stmts => exact .stmts trivial
  | stmt => exact .stmt trivial
  | invoke hc => exact .invoke (callables_of_alike hc)
  | action ha => exact .action ha
  | @block b b' hnode | @whileLoop _ b b' hnode | @forLoop _ _ _ b b' _ hnode
  | @times _ b b' hnode | @forEach _ _ b b' hnode =>
    obtain ⟨p, node⟩ := b
    obtain rfl : node = b'.node := hnode
    constructor
    trivial
  | @script f f' _ hnode =>
    obtain ⟨p, node⟩ := f
    obtain rfl : node = f'.node := hnode
    exact .script trivial

theorem waiting_of_alike {a a' : Action} (h : a.Alike a') (ha : a.answer? m = none) :
    (copySides programs programs').Waiting a a' := by
  cases h with
  | done => exact .done
  | fail => exact .fail
  | @run b b' next next' hnode hnext =>
    obtain ⟨p, node⟩ := b
    obtain rfl : node = b'.node := hnode
    exact .run trivial hnext
  | _ => cases ha

theorem agree_copySides (programs programs' : List (Linked Block)) :
    (copySides programs programs').Agree where
  enters_left := Aligned.enters
  enters_right := Aligned.enters
  hold h _ := h
  maxCallDepth h := congrArg Config.maxCallDepth h.2.1
  isTerminated h := congrArg (fun m => m.ctx.isTerminated) h
  offerClaimed {m m'} h := by
    rw [Context.unnumbered_offerClaimed, Context.unnumbered_offerClaimed m'.ctx]
    exact congrArg (fun m => m.ctx.offerClaimed) h
  depth h := congrArg (fun m => m.ctx.depth) h
  lookup h v _ := congrFun (lookup_eq h.machine) v
  enterBlock {m m' p p' b} h _ :=
    shadow_modifyCtx_of h (fun c => (c.pushFunctions 0 b.functions).pushOffer)
      (fun c => c.unnumbered_enterBlock _ _) fun c => c.unnumbered_enterBlock _ _
  leaveBlock {m m' p p' b} h := shadow_modifyCtx h _ fun c => c.unnumbered_leaveBlock b.functions
  offering {m m' p p' rest} h _ := by
    refine shadow_modifyCtx_of h (fun c => c.offer ((following p rest).map Linked.unnumbered))
      (fun c => c.unnumbered_offer _) fun c => ?_
    rw [c.unnumbered_offer, following, following, Option.map_map, Option.map_map]
    rfl
  enterLoop h := shadow_modifyCtx h Context.enterLoop fun _ => rfl
  exitLoop h := shadow_modifyCtx h Context.exitLoop fun _ => rfl
  setExit h := shadow_modifyCtx h Context.setExit fun _ => rfl
  breakOut h := by
    obtain ⟨hresult, hshadow⟩ := Prod.mk.inj (shadowed_breakOut h _)
    exact .of_eq hresult hshadow
  note h := h
  write h := shadow_write_eq h.machine _ _
  resolve {env p c m env' p' m'} h := by
    obtain ⟨hregistry, -, huniform⟩ := h.env
    have hctx : m.ctx.unnumbered = m'.ctx.unnumbered := congrArg Machine.ctx h.machine
    have hmeans := h.left.resolve_eq
    have hmeans' := h.right.resolve_eq
    rcases hl : m.resolve env p c with ⟨r, m₁⟩
    rcases hr : m'.resolve env' p' c with ⟨r', m₁'⟩
    rw [hl] at hmeans
    rw [hr] at hmeans'
    have hs := (resolve_recalls hl).shadow.trans (h.machine.trans (resolve_recalls hr).shadow.symm)
    rcases meaning_alike huniform hregistry hctx with ⟨e, hm, hm'⟩ | ⟨a, a', hm, hm', ha⟩
    · obtain rfl : r = .error e := hmeans.trans hm
      obtain rfl : r' = .error e := hmeans'.trans hm'
      exact .error hs
    · obtain rfl : r = .ok a := hmeans.trans hm
      obtain rfl : r' = .ok a' := hmeans'.trans hm'
      exact .ok (callables_of_alike ha) hs
  resolveModuleCall {env p module c m env' p' m'} h := by
    obtain ⟨hregistry, -, huniform⟩ := h.env
    have hmeans := resolveModuleCall_eq_meaning h.left.indexed p module c
    have hmeans' := resolveModuleCall_eq_meaning h.right.indexed p' module c
    have hsame : moduleMeaning env' module c = moduleMeaning env module c := by
      rw [moduleMeaning, moduleMeaning, Registry.eq_of_undated hregistry]
      rfl
    rcases hl : m.resolveModuleCall env p module c with ⟨r, m₁⟩
    rcases hr : m'.resolveModuleCall env' p' module c with ⟨r', m₁'⟩
    rw [hl] at hmeans
    rw [hr, hsame, ← hmeans] at hmeans'
    obtain rfl : r' = r := hmeans'
    have hs := (resolveModuleCall_recalls hl).shadow.trans
      (h.machine.trans (resolveModuleCall_recalls hr).shadow.symm)
    cases r' with
    | error e => exact .error hs
    | ok a =>
      have ha : a.Alike a := huniform a (moduleMeaning_mem hmeans.symm)
      exact .ok (callables_of_alike ha) hs
  enterCall {env p f args m env' p' m'} h _ := by
    refine Prod.mk.inj ((shadowed_enterCall f args m).trans ?_)
    rw [show m.shadow = m'.shadow from h.machine]
    rfl
  abandonCall {_ _ _ _ m _ _ m' m₁ m₁'} h _ _ hm := by
    have hctx : m.ctx.unnumbered = m'.ctx.unnumbered := congrArg Machine.ctx h.machine
    show (m₁.abandonCall m.ctx).shadow = (m₁'.abandonCall m'.ctx).shadow
    rw [shadow_abandonCall, shadow_abandonCall, hm, hctx]
  leaveCall {_ _ f args m _ _ m' _ _ _ m₁ _ _ _ m₁'} h _ _ _ _ hm := by
    have hctx : m.ctx.unnumbered = m'.ctx.unnumbered := congrArg Machine.ctx h.machine
    show (m₁.leaveCall m.ctx f args).shadow = (m₁'.leaveCall m'.ctx f args).shadow
    rw [shadow_leaveCall, shadow_leaveCall, hm, hctx]
  answer {env name a m env' a' m' a₁ m₁} h ha := by
    have halike : a.Alike a' := by cases h.job with | action halike => exact halike
    exact answer_alike halike h.machine ha
  waiting {env name a m env' a' m'} h ha := by
    have halike : a.Alike a' := by cases h.job with | action halike => exact halike
    exact waiting_of_alike halike ha
  apart h := by
    obtain ⟨claimed, hdirect, -⟩ := h.left.stands.1
    exact hdirect.elim
  task h := by
    obtain ⟨claimed, hdirect, -⟩ := h.left.stands.1
    exact hdirect.elim

/-- Alike jobs in scope, on machines with the same shadow, give the same answer, and leave machines
    with the same shadow. -/
theorem lockstep_copies (h : Copied programs programs' env j m env' j' m') (n : Nat) :
    (j.run env n m).map shadowed = (j'.run env' n m').map shadowed := by
  have hmeet := (agree_copySides programs programs').meet n
    ⟨h.left, h.right, ⟨h.registry, h.config, h.uniform⟩, h.alike.jobs, h.shadow⟩
  exact hmeet.map_eq fun hshadow => hshadow

end Eval

end TierScript
