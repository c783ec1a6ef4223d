import TierScript.Proofs.Host.Keeping

/-!
# Histories that stay in scope

`Tended` says how a workspace comes about whose host functions keep nothing and run only blocks that
they have claimed, and in which programs run as a whole, on contexts that are in no block.

* `Kept.aligned`: all that such a workspace runs is in scope.
* `Tended.kept`: so calls remember nothing wrong after every such history.
-/

namespace TierScript

/-! ## What a host may ask for -/

/-- The request registers proper callables only and runs the programs only, on contexts that are in
    no block. A text is parsed first (`Tended.load`) and evaluated as a program. -/
def Request.Keeps (programs : List (Linked Block)) (ws : Workspace) : Request → Prop
  | .register _ c => c.Proper programs
  | .registerModule _ m => ∀ c ∈ m.functions, c.Proper programs
  | .eval _ p | .spawn _ p _ => p ∈ programs
  | .evalWith _ p context =>
    p ∈ programs ∧ ∀ c, ws.contexts.lookup context = some c → c.lexical = []
  | .invoke _ callable _ context =>
    callable.Proper programs ∧
      ∀ c, ws.contexts.lookup context = some c → c.lexical = [] ∧ c.attached? = none
  | .load .. | .evalText .. => False
  | _ => True

/-- The workspaces that come about with the given programs. -/
inductive Tended : List (Linked Block) → Workspace → Prop where
  | empty : Tended [] {}
  /-- A text is parsed, and can be evaluated from then on. -/
  | load {programs ws source p ws'} :
      Tended programs ws → ws.load source = (.ok p, ws') → Tended (p :: programs) ws'
  /-- A program gets a name. -/
  | addProgram {programs ws p} (name : String) :
      Tended programs ws → p ∈ programs → Tended programs (ws.addProgram name p)
  /-- A request is served, which may be an evaluation too. -/
  | serve {programs ws r a ws'} :
      Tended programs ws → r.Keeps programs ws → ws.serve r = some (a, ws') → Tended programs ws'

/-! ## Host functions of the toolbox -/

namespace Tool

variable {claimed : Linked Block → Prop}

theorem direct_evaluatedAll {es : List Expr} {next : List Value → Action}
    (h : ∀ vs, (next vs).Direct claimed) : (evaluatedAll es next).Direct claimed := by
  induction es generalizing next with
  | nil => exact h []
  | cons e es ih =>
    intro r
    cases r with
    | ok v => exact ih fun vs => h (v :: vs)
    | error err => trivial

theorem direct_afterwards {next : Action} (h : next.Direct claimed) (r : Except EvalError Unit) :
    (afterwards next r).Direct claimed := by
  cases r with
  | ok => exact h
  | error e => trivial

/-- Printing keeps nothing. -/
theorem proper_print (programs : List (Linked Block)) : print.callable.Proper programs :=
  fun _ => direct_evaluatedAll fun _ => trivial

/-- Running the block after the call twice keeps nothing. -/
theorem proper_twice (programs : List (Linked Block)) : twice.callable.Proper programs := by
  intro args b
  cases b with
  | none => trivial
  | some b => exact ⟨.inr rfl, direct_afterwards ⟨.inr rfl, direct_afterwards trivial⟩⟩

end Tool

/-! ## What holds after such a history -/

theorem Callable.Proper.mono {programs programs' : List (Linked Block)} {c : Callable}
    (h : c.Proper programs) (hsub : programs ⊆ programs') : c.Proper programs' := by
  cases c with
  | native => exact h
  | script => exact Stand.mono h hsub

namespace Workspace

variable {programs : List (Linked Block)} {ws : Workspace} {r : Request} {env : Env}
  {j : Eval.Job} {m : Machine}

namespace Kept

/-- What runs starts in no block, and stands in the programs. -/
theorem stands {allowed : Callable → Prop} (h : ws.Kept allowed programs)
    (hr : r.Keeps programs ws) (hs : Starts ws r env j m) :
    m.ctx.lexical = [] ∧ j.Stands programs m.ctx := by
  have whole {p : Linked Block} {c : Context} (hp : p ∈ programs) (hc : c.lexical = []) :
      c.lexical = [] ∧ (Eval.Job.block p).Stands programs c := ⟨hc, Eval.stands_whole hp hc⟩
  cases hs with
  | @eval _ i => exact whole hr (World.obtain_lexical (h.cleared.worldOf i) i.session)
  | evalText => exact hr.elim
  | evalWith _ hc => exact whole hr.1 (hr.2 _ hc)
  | spawn => exact whole hr rfl
  | invokeScript _ hc => exact ⟨(hr.2 _ hc).1, hr.1⟩
  | @invokeNative _ _ _ _ _ args _ _ _ hc =>
    obtain ⟨hlexical, hattached⟩ := hr.2 _ hc
    refine ⟨hlexical, ⟨_, hr.1 args, fun _ hb => hb.elim⟩, fun b hb => ?_⟩
    rw [hattached] at hb
    cases hb

/-- All that is run while a request is served is in scope. -/
theorem aligned (h : ws.Kept (Callable.Proper programs) programs)
    (hr : r.Keeps programs ws) (hs : Starts ws r env j m) : Eval.Aligned programs env j m := by
  obtain ⟨hlexical, hstands⟩ := h.stands hr hs
  exact h.aligned_of (fun _ args hc _ => hc.suits args) hs hlexical hstands

end Kept

end Workspace

theorem Tended.kept {programs : List (Linked Block)} {ws : Workspace} (h : Tended programs ws) :
    ws.Kept (Callable.Proper programs) programs := by
  induction h with
  | empty => exact .empty _
  | load _ hload ih =>
    exact ih.load (fun _ hc => hc.mono (List.subset_cons_self _ _)) hload
  | addProgram name _ _ ih => exact ih.recorded ⟨rfl, Nat.le_refl _, rfl, rfl⟩ rfl
  | @serve programs ws r a ws' _ hr hserve ih =>
    have hnew : ∀ c ∈ r.registers, c.Proper programs := by
      cases r with
      | register => exact List.forall_mem_singleton.mpr hr
      | registerModule => exact hr
      | _ => nofun
    exact ih.serve hnew (ih.aligned hr) hserve

end TierScript
