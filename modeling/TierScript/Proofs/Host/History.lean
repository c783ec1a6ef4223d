import TierScript.Proofs.Host.Service

/-!
# Histories of a workspace

How a workspace may have come to be, as far as calls and what they remember are concerned: its
interpreters came and went, their registries changed, and calls were resolved one after another,
each by some interpreter on some machine. A history says nothing about the order in which programs
make their calls, so it also covers runs that are not finished and runs that take turns.

Serving a request is a part of a history (`History.serve`), so that all requests together are one
(`History.serveAll`). The contexts that wait in the pools along a history were cleared, so every run
starts from blank ones: `History.worldOf_blank`.
-/

namespace TierScript

namespace Workspace

/-- The workspaces that can come about. -/
inductive History : Workspace → Prop where
  | empty : History {}
  | addInterpreter {ws} (h : History ws) (name : String) (session : SessionId) (config : Config) :
      History (ws.addInterpreter name session config)
  | cloneInterpreter {ws} (h : History ws) (i : Interpreter) (name : String) :
      History (ws.cloneInterpreter i name)
  | dropInterpreter {ws} (h : History ws) (name : String) : History (ws.dropInterpreter name)
  | register {ws} (h : History ws) (i : Interpreter) (c : Callable) : History (ws.register i c).2
  | registerModule {ws} (h : History ws) (i : Interpreter) (m : Module) :
      History (ws.registerModule i m).2
  /-- An interpreter resolves a call, on whatever context. -/
  | resolve {ws} (h : History ws) (i : Interpreter) {env : Env} {m m' : Machine} {program c r} :
      env.registry = ws.registry i → m.world.calls = ws.world.calls →
      m.resolve env program c = (r, m') → History { ws with world := m'.world }
  /-- An interpreter resolves a call of a function of a module. -/
  | resolveModuleCall {ws} (h : History ws) (i : Interpreter) {env : Env} {m m' : Machine}
      {program module c r} :
      env.registry = ws.registry i → m.world.calls = ws.world.calls →
      m.resolveModuleCall env program module c = (r, m') → History { ws with world := m'.world }
  /-- Something else happens: variables, output, the log, programs, contexts and pools change, and
      numbers are used up. A pool that changes holds contexts that were cleared. -/
  | other {ws ws'} (h : History ws) :
      ws'.registries = ws.registries → ws.fresh ≤ ws'.fresh →
      ws'.world.calls = ws.world.calls → (∀ e ∈ ws'.pools, e ∈ ws.pools ∨ e.2.Blank) → History ws'

namespace History

variable {ws ws' : Workspace} {i : Interpreter} {env : Env}

theorem quiet (h : History ws) {w : World} (hc : w.calls = ws.world.calls) :
    History { ws with world := w } := h.other rfl (Nat.le_refl _) hc fun _ he => .inl he

/-- A history goes on while an interpreter runs something. -/
theorem upkeep (ws : Workspace) (i : Interpreter) :
    Upkeep (ws.registry i) fun w => History { ws with world := w } where
  note _ _ h := h.quiet rfl
  print _ _ h := h.quiet rfl
  keep _ _ h := h.quiet rfl
  store _ _ h := h.quiet rfl
  obtain _ _ h := h.quiet rfl
  release _ _ h := h.quiet rfl
  resolve henv hr h := h.resolve i henv rfl hr
  resolveModuleCall henv hr h := h.resolveModuleCall i henv rfl hr

theorem ends {j : Eval.Job} {m m' : Machine} {r : Except EvalError Unit} (h : History ws)
    (i : Interpreter) (he : Eval.Ends env j m r m') (henv : env.registry = ws.registry i)
    (hm : m.world.calls = ws.world.calls) : History { ws with world := m'.world } :=
  he.upkeep (henv ▸ upkeep ws i) (h.quiet hm)

/-! ## Pools -/

/-- All pools are blank, however they came about. -/
theorem pools_blank (h : History ws) : ∀ e ∈ ws.pools, e.2.Blank := by
  induction h with
  | empty => nofun
  | addInterpreter _ name session config ih =>
    intro e he
    rcases List.mem_cons.mp he with rfl | he
    · nofun
    · exact ih e he
  | cloneInterpreter _ i name ih | dropInterpreter _ name ih | resolve _ i _ _ _ ih
  | resolveModuleCall _ i _ _ _ ih => exact ih
  | register _ i c ih =>
    unfold Workspace.register
    split <;> exact ih
  | registerModule _ i m ih =>
    unfold Workspace.registerModule
    split
    · exact ih
    · split <;> exact ih
  | other _ _ _ _ hp ih =>
    intro e he
    rcases hp e he with he | hblank
    · exact ih e he
    · exact hblank

/-- Every evaluation starts with a blank pool. -/
theorem worldOf_blank (h : History ws) (i : Interpreter) : (ws.worldOf i).Blank := by
  show (ws.pool i).Blank
  unfold Workspace.pool
  cases hl : ws.pools.lookup i.pool with
  | none => nofun
  | some p =>
    obtain ⟨before, after, hsplit, -⟩ := List.lookup_eq_some_iff.mp hl
    refine h.pools_blank (i.pool, p) ?_
    rw [hsplit]
    exact List.mem_append_right _ List.mem_cons_self

theorem adopt {w : World} (h : History { ws with world := w }) (hw : w.Blank) (i : Interpreter) :
    History (ws.adopt i w) := by
  refine h.other rfl (Nat.le_refl _) rfl ?_
  intro e he
  obtain ⟨e', he', rfl⟩ := List.mem_map.mp he
  split
  · exact .inr hw
  · exact .inl he'

/-! ## What a workspace can be asked to do -/

/-- Serving a request is a part of a history, whatever runs meanwhile. -/
theorem serve (h : History ws) {r : Request} {a : Answer} (hs : ws.serve r = some (a, ws')) :
    History ws' := by
  cases serves_of_serve hs with
  | nothing => exact h
  | addInterpreter => exact h.addInterpreter _ _ _
  | cloneInterpreter => exact h.cloneInterpreter _ _
  | dropInterpreter => exact h.dropInterpreter _
  | register => exact h.register _ _
  | registerModule => exact h.registerModule _ _
  | load => exact h.other rfl (Nat.le_succ _) rfl fun _ he => .inl he
  | @dropProgram name emptyDrawer =>
    cases emptyDrawer <;> exact h.other rfl (Nat.le_refl _) rfl fun _ he => .inl he
  | newContext | derive | adjust | write | sessionVars | globalVars | drain =>
    exact h.other rfl (Nat.le_refl _) rfl fun _ he => .inl he
  | clearSession =>
    unfold Workspace.clearSession
    dsimp only
    split <;> exact h.other rfl (Nat.le_refl _) rfl fun _ he => .inl he
  | @ranPooled _ env i p _ m fresh _ henv hends hfresh =>
    have hrun : History { ws with world := m.world } := h.ends i hends henv rfl
    have hblank := hends.upkeep (upkeep_blank _) ((h.worldOf_blank i).obtain i.session)
    have hback := ((upkeep ws i).release _ m.ctx hrun).adopt (hblank.release _) i
    exact hback.other rfl hfresh rfl fun _ he => .inl he
  | @ranOn _ env i j context c w _ m _ henv hnoted _ hends =>
    have hstart : w.calls = ws.world.calls ∧ w.Blank := by
      cases hnoted <;> exact ⟨rfl, h.worldOf_blank i⟩
    have hrun : History { ws with world := m.world } := h.ends i hends henv hstart.1
    have hback := hrun.adopt (hends.upkeep (upkeep_blank _) hstart.2) i
    exact hback.other rfl (Nat.le_refl _) rfl fun _ he => .inl he
  | @ranApart _ env i j c _ m w _ henv hends hnoted =>
    have hrun : History { ws with world := m.world } := h.ends i hends henv rfl
    have hblank := hends.upkeep (upkeep_blank _) (h.worldOf_blank i)
    cases hnoted with
    | still => exact hrun.adopt hblank i
    | note e => exact ((upkeep ws i).note _ e hrun).adopt hblank i

/-- So whatever a host asks of a new workspace, one after another, is a history. -/
theorem serveAll {rs : List Request} {answers : List Answer}
    (hs : ({} : Workspace).serveAll rs = some (answers, ws)) : History ws :=
  serveAll_induction (fun _ hserve h => h.serve hserve) .empty hs

end History

end Workspace

end TierScript
