import TierScript.Proofs.Host.Backing
import TierScript.Proofs.Host.Keeping
import TierScript.Proofs.Host.Library

/-!
# Preparing a workspace

`Prepared` says how a workspace comes about whose programs read no global variables, whose host
functions keep to the context they are given, and in which no session was forgotten that still had a
context.

* `Workspace.Orderly`: what holds of such a workspace. What it runs is settled (`Orderly.settled`),
  so a request that keeps to these rules keeps the workspace orderly (`Orderly.serve`).
* `Prepared.orderly`: a prepared workspace is orderly, with its programs as the library.
-/

namespace TierScript

/-! ## What a host may ask for -/

/-- The callable is a plain host function, or a function that one of the programs defines at its
    top. -/
def Callable.From (programs : List (Linked Block)) : Callable → Prop
  | .native _ _ body => ∀ args, Spared (args.flatMap Expr.reads) → (body args).Plain fun _ => False
  | .script f => ∃ p ∈ programs, p.program = f.program ∧ f.node ∈ p.node.functions

/-- The request registers plain host functions and functions of the programs only, and evaluates the
    programs only; texts are parsed by `Prepared.load`. A context may be changed as long as it stays
    in the same blocks. -/
def Request.Allowed (programs : List (Linked Block)) : Request → Prop
  | .register _ c => c.From programs
  | .registerModule _ m => ∀ c ∈ m.functions, c.From programs
  | .eval _ p | .evalWith _ p _ => p ∈ programs
  | .adjust _ f => ∀ c, (f c).lexical = c.lexical
  | .load .. | .evalText .. | .spawn .. | .invoke .. => False
  | _ => True

/-- The workspaces that come about with the given programs. No program reads a global variable. -/
inductive Prepared : List (Linked Block) → Workspace → Prop where
  | empty : Prepared [] {}
  /-- A text is parsed, and can be evaluated from then on. -/
  | load {programs ws source p ws'} :
      Prepared programs ws → ws.load source = (.ok p, ws') → Spared p.node.reads →
      Prepared (p :: programs) ws'
  /-- A program gets a name. -/
  | addProgram {programs ws p} (name : String) :
      Prepared programs ws → p ∈ programs → Prepared programs (ws.addProgram name p)
  /-- A request is served, which may be an evaluation too. -/
  | serve {programs ws r a ws'} :
      Prepared programs ws → r.Allowed programs → ws.sparesContexts r = true →
      ws.serve r = some (a, ws') → Prepared programs ws'

/-! ## Host functions of the toolbox -/

namespace Tool

variable {claimed : Linked Block → Prop}

theorem plain_evaluatedAll {es : List Expr} {next : List Value → Action}
    (hes : ∀ e ∈ es, Spared e.reads) (h : ∀ vs, (next vs).Plain claimed) :
    (evaluatedAll es next).Plain claimed := by
  induction es generalizing next with
  | nil => exact h []
  | cons e es ih =>
    obtain ⟨he, hes⟩ := List.forall_mem_cons.mp hes
    refine ⟨he, fun r => ?_⟩
    cases r with
    | ok v => exact ih hes fun vs => h (v :: vs)
    | error err => trivial

theorem plain_afterwards {next : Action} (h : next.Plain claimed) (r : Except EvalError Unit) :
    (afterwards next r).Plain claimed := by
  cases r with
  | ok => exact h
  | error e => trivial

/-- Printing keeps to the context. -/
theorem from_print (programs : List (Linked Block)) : print.callable.From programs := by
  intro args hargs
  refine plain_evaluatedAll (fun e he v hv => ?_) fun vs => trivial
  exact hargs v (List.mem_flatMap.mpr ⟨e, he, hv⟩)

/-- Running the block after the call twice keeps to the context. -/
theorem from_twice (programs : List (Linked Block)) : twice.callable.From programs := by
  intro args _ b
  cases b with
  | none => trivial
  | some b =>
    exact ⟨.inr rfl, plain_afterwards ⟨.inr rfl, plain_afterwards trivial⟩⟩

end Tool

/-! ## Callables from the programs -/

namespace Callable.From

variable {c : Callable}

theorem mono {programs programs' : List (Linked Block)} (h : c.From programs)
    (hsub : programs ⊆ programs') : c.From programs' := by
  cases c with
  | native => exact h
  | script f =>
    obtain ⟨p, hp, hfrom⟩ := h
    exact ⟨p, hsub hp, hfrom⟩

theorem tame {programs : List (Linked Block)} (h : c.From programs) : c.Tame := by
  cases c with
  | native => exact h
  | script => trivial

/-- Calls in the programs of a library read no global variables in their arguments. -/
theorem suits {lib : Library} {args : List Expr} (h : c.From lib.programs)
    (hargs : Passes lib.programs args) : c.Suits lib.programs args := by
  cases c with
  | native => exact (h args (Library.spares_args hargs)).direct
  | script f =>
    obtain ⟨p, hp, hprogram, hf⟩ := h
    have hfunctions := (stand_block.mp (stand_program hp)).2
    have hstand := hfunctions.function hf
    rwa [hprogram] at hstand

end Callable.From

/-! ## Orderly workspaces -/

namespace Workspace

open Eval

/-- A workspace that works with the programs of the library only. -/
structure Orderly (lib : Library) (ws : Workspace) : Prop where
  kept : ws.Kept (Callable.From lib.programs) lib.programs
  sound : ws.Sound
  backed : ws.Backed
  /-- A context that is not in use is in no block. -/
  rest : ∀ x ∈ ws.contexts, x.2.lexical = []

variable {lib : Library} {ws ws' : Workspace} {i : Interpreter} {env : Env} {j : Job} {m : Machine}
  {r : Request}

/-- Programs of the library are evaluated as a whole, on contexts that are in no block. -/
theorem Orderly.starts_whole (h : ws.Orderly lib) (hr : r.Allowed lib.programs)
    (hs : Starts ws r env j m) :
    ∃ p ∈ lib.programs, j = .block p ∧ m.ctx.lexical = [] := by
  cases hs with
  | @eval _ i p =>
    exact ⟨p, hr, rfl, World.obtain_lexical (h.sound.fresh.worldOf i).cleared i.session⟩
  | @evalWith _ _ p _ _ _ hc => exact ⟨p, hr, rfl, h.rest _ (mem_of_lookup hc)⟩
  | evalText | spawn | invokeScript | invokeNative => exact hr.elim

/-- What runs while a request is served is settled. -/
theorem Orderly.settled (h : ws.Orderly lib) (hr : r.Allowed lib.programs)
    (hs : Starts ws r env j m) : Settled lib env j m := by
  obtain ⟨p, hp, rfl, hlexical⟩ := h.starts_whole hr hs
  obtain ⟨i, henv, -⟩ := hs.ran
  exact {
    aligned := h.kept.aligned_of (fun _ _ hc hargs => hc.suits hargs) hs hlexical
      (stands_whole hp hlexical)
    tame := fun c hc => (h.kept.callables _ (henv ▸ ws.holds_registry i) c hc).tame
    spares := trivial
    sound := h.sound.starts hs
    apart := (h.backed.starts hs).2.apart }

/-- Contexts that are not in use stay out of all blocks. -/
theorem Orderly.rest_serve (h : ws.Orderly lib) (hr : r.Allowed lib.programs) {a : Answer}
    (hserve : ws.serve r = some (a, ws')) : ∀ x ∈ ws'.contexts, x.2.lexical = [] := by
  refine (effect_serve hserve).contexts (fun hframe hc => hframe.lexical.trans hc)
    (fun _ _ => rfl) (fun _ _ => rfl) ?_ h.rest
  rintro context f rfl c hc
  exact (hr c).trans hc

theorem Orderly.serve (h : ws.Orderly lib) (hr : r.Allowed lib.programs)
    (hrule : ws.sparesContexts r = true) {a : Answer} (hserve : ws.serve r = some (a, ws')) :
    ws'.Orderly lib where
  kept := by
    have hnew : ∀ c ∈ r.registers, c.From lib.programs := by
      cases r with
      | register => exact List.forall_mem_singleton.mpr hr
      | registerModule => exact hr
      | _ => nofun
    exact h.kept.serve hnew (fun hs => (h.settled hr hs).aligned) hserve
  sound := (does_serve hserve).sound hrule h.sound
  backed := h.backed.serve hserve
  rest := h.rest_serve hr hserve

end Workspace

/-! ## Prepared workspaces -/

theorem Prepared.orderly {programs : List (Linked Block)} {ws : Workspace}
    (h : Prepared programs ws) : ∃ lib : Library, lib.programs = programs ∧ ws.Orderly lib := by
  induction h with
  | empty =>
    have hsound : Workspace.Sound {} := ⟨List.forall_mem_nil _, List.forall_mem_nil _⟩
    exact ⟨⟨[], nofun⟩, rfl, .empty _, hsound, .empty, List.forall_mem_nil _⟩
  | @load programs ws source p ws' _ hload hspared ih =>
    obtain ⟨lib, rfl, horderly⟩ := ih
    have hkept := horderly.kept.load (fun _ hc => hc.mono (List.subset_cons_self p _)) hload
    obtain ⟨-, -, rfl⟩ := Workspace.load_eq_ok hload
    refine ⟨⟨p :: lib.programs, List.forall_mem_cons.mpr ⟨hspared, lib.spared⟩⟩, rfl, hkept,
      horderly.sound.quiet (.of_eq rfl rfl (.refl _) rfl), ?_, horderly.rest⟩
    exact ⟨horderly.backed.apart, horderly.backed.idle, horderly.backed.contexts⟩
  | addProgram name _ _ ih =>
    obtain ⟨lib, hlib, horderly⟩ := ih
    refine ⟨lib, hlib, horderly.kept.recorded ⟨rfl, Nat.le_refl _, rfl, rfl⟩ rfl,
      horderly.sound.quiet (.of_eq rfl rfl (.refl _) rfl), ?_, horderly.rest⟩
    exact ⟨horderly.backed.apart, horderly.backed.idle, horderly.backed.contexts⟩
  | serve _ hallowed hrule hserve ih =>
    obtain ⟨lib, rfl, horderly⟩ := ih
    exact ⟨lib, rfl, horderly.serve hallowed hrule hserve⟩

/-- Requests that keep to the rules are served one after another. -/
theorem Prepared.serveAll {programs : List (Linked Block)} {ws ws' : Workspace}
    (h : Prepared programs ws) {rs : List Request} (hallowed : ∀ r ∈ rs, r.Allowed programs)
    (hrule : Workspace.keepsTo Workspace.sparesContexts ws rs = true) {answers : List Answer}
    (hserved : ws.serveAll rs = some (answers, ws')) : Prepared programs ws' :=
  Workspace.keepsTo_induction (fun hr hspares hserve hp => .serve hp (hallowed _ hr) hspares hserve)
    hrule h hserved

end TierScript
