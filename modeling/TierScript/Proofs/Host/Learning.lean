import TierScript.Proofs.Host.Racing

/-!
# What calls learn from a request

While a request is served, the registries change, or something runs, or neither. Calls learn only
from what runs.

* `Workspace.Alters`: what serving a request can do to the registries and to what calls remember.
* `Alters.reaches`: this can also come about by single steps of calls and of the host. So after
  every history of requests, what calls remember is right for the registries
  (`indexed_of_reaches`).
-/

namespace TierScript

namespace Workspace

/-- The registries are those of the workspace `ws`, and calls remember what they do in the world
    `w`. -/
structure Recorded (ws : Workspace) (w : World) (ws' : Workspace) : Prop where
  registries : ws'.registries = ws.registries
  fresh : ws.fresh ≤ ws'.fresh
  calls : ws'.world.calls = w.calls
  moduleCalls : ws'.world.moduleCalls = w.moduleCalls

/-- What serving a request can do to the registries and to what calls remember. -/
inductive Alters (ws : Workspace) : Request → Workspace → Prop where
  | still {r ws'} : Recorded ws ws.world ws' → Alters ws r ws'
  | addInterpreter {name session config} :
      Alters ws (.addInterpreter name session config) (ws.addInterpreter name session config)
  | cloneInterpreter {interpreter name} (i : Interpreter) :
      Alters ws (.cloneInterpreter interpreter name) (ws.cloneInterpreter i name)
  | dropInterpreter {name} : Alters ws (.dropInterpreter name) (ws.dropInterpreter name)
  | register {interpreter c} (i : Interpreter) :
      Alters ws (.register interpreter c) (ws.register i c).2
  | registerModule {interpreter m} (i : Interpreter) :
      Alters ws (.registerModule interpreter m) (ws.registerModule i m).2
  | ran {r env j m result m' ws'} :
      Starts ws r env j m → Eval.Ends env j m result m' → Recorded ws m'.world ws' →
      Alters ws r ws'

variable {ws ws' : Workspace} {r : Request} {a : Answer}

theorem Alters.refl (ws : Workspace) (r : Request) : Alters ws r ws :=
  .still ⟨rfl, Nat.le_refl _, rfl, rfl⟩

/-- Calls remember the same when a session is forgotten. -/
theorem clearSession_memory (ws : Workspace) (session : SessionId) :
    (ws.clearSession session).2.world.calls = ws.world.calls ∧
      (ws.clearSession session).2.world.moduleCalls = ws.world.moduleCalls := by
  unfold Workspace.clearSession
  dsimp only
  split <;> exact ⟨rfl, rfl⟩

theorem alters_serve (h : ws.serve r = some (a, ws')) : Alters ws r ws' := by
  cases serves_of_serve h with
  | nothing => exact .refl ws r
  | addInterpreter => exact .addInterpreter
  | cloneInterpreter => exact .cloneInterpreter _
  | dropInterpreter => exact .dropInterpreter
  | register => exact .register _
  | registerModule => exact .registerModule _
  | load => exact .still ⟨rfl, Nat.le_succ _, rfl, rfl⟩
  | @dropProgram name emptyDrawer =>
    cases emptyDrawer <;> exact .still ⟨rfl, Nat.le_refl _, rfl, rfl⟩
  | newContext | derive | adjust | write | sessionVars | globalVars | drain =>
    exact .still ⟨rfl, Nat.le_refl _, rfl, rfl⟩
  | @clearSession session =>
    obtain ⟨hcalls, hmodules⟩ := ws.clearSession_memory session
    exact .still ⟨rfl, Nat.le_refl _, hcalls, hmodules⟩
  | ranPooled hs _ hends hfresh => exact .ran hs hends ⟨rfl, hfresh, rfl, rfl⟩
  | ranOn hs _ _ _ hends => exact .ran hs hends ⟨rfl, Nat.le_refl _, rfl, rfl⟩
  | ranApart hs _ hends hnoted =>
    cases hnoted <;> exact .ran hs hends ⟨rfl, Nat.le_refl _, rfl, rfl⟩

namespace Alters

theorem fresh_le (h : Alters ws r ws') : ws.fresh ≤ ws'.fresh := by
  cases h with
  | still hrec => exact hrec.fresh
  | addInterpreter => exact Nat.le_succ _
  | cloneInterpreter | dropInterpreter => exact Nat.le_refl _
  | register i =>
    unfold Workspace.register
    split
    · exact Nat.le_refl _
    · exact Nat.le_succ _
  | registerModule i =>
    unfold Workspace.registerModule
    split
    · exact Nat.le_refl _
    · split
      · exact Nat.le_refl _
      · exact Nat.le_succ _
  | ran _ _ hrec => exact hrec.fresh

/-- Calls learn from what runs only. -/
theorem learns (h : Alters ws r ws') :
    ws'.world.calls = ws.world.calls ∨
      ∃ env j m result m', Starts ws r env j m ∧ Eval.Ends env j m result m' ∧
        ws'.world.calls = m'.world.calls := by
  cases h with
  | still hrec => exact .inl hrec.calls
  | addInterpreter | cloneInterpreter | dropInterpreter => exact .inl rfl
  | register i =>
    unfold Workspace.register
    split <;> exact .inl rfl
  | registerModule i =>
    unfold Workspace.registerModule
    split
    · exact .inl rfl
    · split <;> exact .inl rfl
  | ran hs he hrec => exact .inr ⟨_, _, _, _, _, hs, he, hrec.calls⟩

/-- A registry was there before, or is empty, or is what the request makes of one. -/
theorem holds (h : Alters ws r ws') {registry : Registry} (hr : ws'.Holds registry) :
    ws.Holds registry ∨ registry = { generation := ws.fresh } ∨
      (∃ interpreter c i, r = .register interpreter c ∧
        registry = (ws.registry i).register ws.fresh c) ∨
      ∃ interpreter m i, r = .registerModule interpreter m ∧
        (ws.registry i).registerModule ws.fresh m = .ok registry := by
  cases h with
  | still hrec | ran _ _ hrec => exact .inl (hr.mono fun e he => hrec.registries ▸ he)
  | addInterpreter =>
    refine (hr.change fun e he => ?_).imp_right .inl
    rcases List.mem_cons.mp (List.mem_filter.mp he).1 with rfl | he
    · exact .inr rfl
    · exact .inl he
  | cloneInterpreter | dropInterpreter =>
    exact .inl (hr.mono fun e he => (List.mem_filter.mp he).1)
  | @register interpreter c i =>
    unfold Workspace.register at hr
    split at hr
    · exact .inl hr
    · refine (hr.change fun e he => mem_setRegistry he).imp_right fun heq => ?_
      exact .inr (.inl ⟨interpreter, c, i, rfl, heq⟩)
  | @registerModule interpreter m i =>
    unfold Workspace.registerModule at hr
    split at hr
    · exact .inl hr
    · split at hr
      · exact .inl hr
      · next new hnew =>
        refine (hr.change fun e he => mem_setRegistry he).imp_right fun heq => ?_
        exact .inr (.inr ⟨interpreter, m, i, rfl, heq ▸ hnew⟩)

/-- Serving a request comes down to steps of calls and of the host. -/
theorem reaches (h : Alters ws r ws') (us : List Underway) :
    Traffic.Reaches ⟨ws, us⟩ ⟨ws', us⟩ := by
  cases h with
  | still hrec => exact .single (.other hrec.registries hrec.fresh hrec.calls hrec.moduleCalls)
  | addInterpreter => exact .single (.addInterpreter _ _ _)
  | cloneInterpreter i => exact .single (.cloneInterpreter i _)
  | dropInterpreter => exact .single (.dropInterpreter _)
  | register i => exact .single (.register i _)
  | registerModule i => exact .single (.registerModule i _)
  | ran hs he hrec =>
    obtain ⟨i, henv, hran⟩ := hs.ran
    have hrun := Traffic.reaches_ran (hran.trans (henv ▸ Ran.of_ends he)) us
    exact hrun.tail (.other hrec.registries hrec.fresh hrec.calls hrec.moduleCalls)

end Alters

/-- What calls remember is right for all registries that there are. -/
theorem indexed_of_reaches {us : List Underway} (h : Traffic.Reaches {} ⟨ws, us⟩) {r : Registry}
    (hr : ws.Holds r) : ws.world.Indexed r := by
  obtain ⟨past, hcoherent⟩ := h.coherent
  exact hcoherent.indexed r (hcoherent.held r hr)

end Workspace

end TierScript
