import TierScript.Proofs.Host.Caches
import TierScript.Proofs.Host.Pools

/-!
# Evaluations

A workspace evaluates programs, each by some interpreter and on some context.

* `Workspace.Holds`: the registries that interpreters find their callables in.
* `Evaluation.start`, `Evaluation.finish`: an evaluation is a run of a program between the two
  (`Evaluation.serve_eq`).
-/

namespace TierScript

/-! ## Registries -/

namespace Registry

variable {r r' : Registry} {generation : Nat}

theorem mem_callables_register {c c' : Callable}
    (h : c' ∈ (r.register generation c).callables) : c' ∈ r.callables ∨ c' = c := by
  simp only [callables, Registry.register, Array.toList_push, List.mem_append,
    List.mem_singleton] at h ⊢
  exact or_right_comm.mp h

theorem mem_callables_registerModule {m : Module} {c : Callable}
    (hr : r.registerModule generation m = .ok r') (h : c ∈ r'.callables) :
    c ∈ r.callables ∨ c ∈ m.functions := by
  unfold Registry.registerModule at hr
  split at hr
  · cases hr
  · cases hr
    simp only [callables, Array.toList_push, List.flatMap_append, List.flatMap_singleton,
      List.mem_append] at h ⊢
    exact or_assoc.mpr h

end Registry

namespace Workspace

variable {ws ws' : Workspace}

/-- A registry of the workspace, or the empty one that stands for a registry that is gone. -/
def Holds (ws : Workspace) (r : Registry) : Prop := r = default ∨ ∃ e ∈ ws.registries, e.2 = r

theorem holds_registry (ws : Workspace) (i : Interpreter) : ws.Holds (ws.registry i) :=
  (Stamped.registry_cases ws i).symm

theorem Holds.mono {r : Registry} (h : ws'.Holds r)
    (hr : ∀ e ∈ ws'.registries, e ∈ ws.registries) : ws.Holds r :=
  h.imp_right fun ⟨e, he, heq⟩ => ⟨e, hr e he, heq⟩

theorem Holds.change {r new : Registry} (h : ws'.Holds r)
    (hr : ∀ e ∈ ws'.registries, e ∈ ws.registries ∨ e.2 = new) : ws.Holds r ∨ r = new := by
  rcases h with rfl | ⟨e, he, rfl⟩
  · exact .inl (.inl rfl)
  · exact (hr e he).imp_left fun he => .inr ⟨e, he, rfl⟩

end Workspace

/-! ## Evaluations -/

/-- An evaluation of a parsed program by an interpreter, on the context with the given name, or else
    on one from the pool of the interpreter. -/
structure Evaluation where
  interpreter : String
  program : Linked Block
  context : Option String := none

namespace Evaluation

/-- What a workspace is asked for. -/
def request (e : Evaluation) : Request :=
  match e.context with
  | some name => .evalWith e.interpreter e.program name
  | none => .eval e.interpreter e.program

/-- Which interpreter evaluates the program, in which environment, and on which machine the program
    starts. -/
def start (e : Evaluation) (ws : Workspace) : Option (Interpreter × Env × Machine) :=
  (ws.interpreters.lookup e.interpreter).bind fun i =>
    match e.context with
    | some name =>
      (ws.contexts.lookup name).map fun c =>
        (i, ws.env i [], Eval.begun e.program ⟨c, ws.worldOf i⟩)
    | none => some (i, ws.env i [e.program.program], Eval.begun e.program (ws.taken i))

theorem starts {e : Evaluation} {ws : Workspace} {i : Interpreter} {env : Env} {m : Machine}
    (h : e.start ws = some (i, env, m)) : ws.Starts e.request env (.block e.program) m := by
  obtain ⟨interpreter, program, context⟩ := e
  obtain ⟨i, hi, h⟩ := Option.bind_eq_some_iff.mp h
  cases context with
  | none => cases h; exact .eval hi
  | some name =>
    obtain ⟨c, hc, h⟩ := Option.map_eq_some_iff.mp h
    cases h
    exact .evalWith hi hc

/-- The workspace after the program has ended on the machine `m`. -/
def finish (e : Evaluation) (ws : Workspace) (i : Interpreter) (m : Machine) : Workspace :=
  match e.context with
  | some name => (ws.adopt i m.world).setContext name m.ctx
  | none => ws.adopt i (m.world.release m.ctx)

/-- An evaluation is a run of the program between its start and its finish. -/
theorem serve_eq (e : Evaluation) (ws : Workspace) :
    ws.serve e.request =
      match e.start ws with
      | none => some (.unknown, ws)
      | some (i, env, m) =>
        (Eval.block env Workspace.fuel e.program m).map fun (r, m) =>
          (.ended r, e.finish ws i m) := by
  obtain ⟨interpreter, program, context⟩ := e
  unfold request start finish
  cases context with
  | none =>
    show ws.ask ws.interpreters interpreter _ = _
    unfold Workspace.ask
    cases ws.interpreters.lookup interpreter with
    | none => rfl
    | some i =>
      dsimp only [Option.bind_some]
      rw [Workspace.eval, Eval.pooled_eq, Option.map_map, Option.map_map]
      rfl
  | some name =>
    show ws.ask ws.interpreters interpreter _ = _
    unfold Workspace.ask
    cases ws.interpreters.lookup interpreter with
    | none => rfl
    | some i =>
      dsimp only [Option.bind_some]
      cases ws.contexts.lookup name with
      | none => rfl
      | some c =>
        show ((Eval.block (ws.env i []) Workspace.fuel program
          (Eval.begun program ⟨c, ws.worldOf i⟩)).map _).map _ = _
        rw [Option.map_map]
        rfl

end Evaluation

end TierScript
