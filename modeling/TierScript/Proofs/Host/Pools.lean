import TierScript.Proofs.Host.Service

/-!
# Pools and sessions along a history

What can be said of the pools of a workspace after any requests, and of every moment of the runs
that it starts.

* `serveAll_cleared`: idle contexts were always cleared.
* `Does.fresh`: fresh pools stay fresh, as long as no session is forgotten while an idle context of
  it waits (`sparesIdle`).
* `serveAll_sound`: all pools are fresh and all contexts with a name are current, as long as no
  session is forgotten while there is any context of it (`sparesContexts`).
* `Workspace.Takes`: which contexts are taken from pools while a request is served. The three
  properties hold at each of these moments, and when something starts to run (`Sound.starts`).
-/

namespace TierScript

namespace Workspace

variable {ws ws' : Workspace} {i : Interpreter}

/-! ## Rules for forgetting sessions -/

/-- No session is forgotten while an idle context of it waits in a pool. -/
def sparesIdle (ws : Workspace) : Request → Bool
  | .clearSession session => ws.pools.all fun e => e.2.idle.all fun c => c.session != session
  | _ => true

/-- No session is forgotten while there is a context of it, idle or with a name. -/
def sparesContexts (ws : Workspace) (r : Request) : Bool :=
  ws.sparesIdle r &&
    match r with
    | .clearSession session => ws.contexts.all fun x => x.2.session != session
    | _ => true

theorem idle_of_sparesIdle {session : SessionId}
    (h : ws.sparesIdle (.clearSession session) = true) :
    ∀ e ∈ ws.pools, ∀ c ∈ e.2.idle, c.session ≠ session := by
  simpa [sparesIdle] using h

theorem contexts_of_sparesContexts {session : SessionId}
    (h : ws.sparesContexts (.clearSession session) = true) :
    ∀ x ∈ ws.contexts, x.2.session ≠ session := by
  have hnamed := (Bool.and_eq_true_iff.mp h).2
  simpa using hnamed

/-! ## Invariants -/

/-- All idle contexts of all pools were cleared. -/
def Cleared (ws : Workspace) : Prop := ∀ e ∈ ws.pools, e.2.Cleared

/-- All pools are fresh. -/
def Fresh (ws : Workspace) : Prop := ∀ e ∈ ws.pools, World.Fresh { ws.world with pool := e.2 }

/-- All pools are fresh, and all contexts with a name use the variables that their sessions have
    now. -/
structure Sound (ws : Workspace) : Prop where
  fresh : ws.Fresh
  current : ∀ x ∈ ws.contexts, x.2.Current ws.world.stores

/-- What holds of every pool holds of the pool of an interpreter. -/
theorem worldOf_of_pools {q : World → Prop} (h : ∀ e ∈ ws.pools, q { ws.world with pool := e.2 })
    (hdefault : q { ws.world with pool := {} }) (i : Interpreter) : q (ws.worldOf i) := by
  unfold Workspace.worldOf Workspace.pool
  cases hl : ws.pools.lookup i.pool with
  | none => exact hdefault
  | some p => exact h _ (mem_of_lookup hl)

theorem Cleared.worldOf (h : ws.Cleared) (i : Interpreter) : (ws.worldOf i).pool.Cleared :=
  worldOf_of_pools (q := fun w => w.pool.Cleared) h nofun i

theorem Fresh.worldOf (h : ws.Fresh) (i : Interpreter) : (ws.worldOf i).Fresh :=
  worldOf_of_pools h nofun i

/-- After a run the pool of its interpreter is the one that the run has left. -/
theorem mem_pools_adopt {w : World} {e : Nat × Pool} (h : e ∈ (ws.adopt i w).pools) :
    e.2 = w.pool ∧ i.pool ∈ ws.pools.map Prod.fst ∨ e ∈ ws.pools := by
  obtain ⟨e₀, he₀, rfl⟩ := List.mem_map.mp h
  split
  · next heq => exact .inl ⟨rfl, heq ▸ List.mem_map_of_mem he₀⟩
  · exact .inr he₀

theorem clearSession_stores (ws : Workspace) (session : SessionId) :
    (ws.clearSession session).2.world.stores = (ws.world.stores.forget session).2 := by
  unfold Workspace.clearSession
  dsimp only
  split <;> rfl

theorem Does.cleared_pools {r : Request} (h : Does ws r ws') (hw : ws.Cleared) : ws'.Cleared := by
  cases h with
  | quiet hq => exact fun e he => hw e (hq.pools ▸ he)
  | added =>
    intro e he
    rcases List.mem_cons.mp he with rfl | he
    · nofun
    · exact hw e he
  | cleared => exact hw
  | ran hran hq =>
    intro e he
    rw [hq.pools] at he
    rcases mem_pools_adopt he with ⟨heq, -⟩ | he
    · rw [heq]
      exact hran.upkeep _ (upkeep_cleared _) (hw.worldOf _)
    · exact hw e he

theorem Fresh.quiet (h : ws.Fresh) (hq : Quiet ws ws') : ws'.Fresh := by
  intro e he c hc
  rw [hq.pools] at he
  exact ⟨(h e he c hc).1, (h e he c hc).2.mono hq.stores⟩

theorem Fresh.adopt {w : World} (h : ws.Fresh) (hw : (ws.worldOf i).Onward w) :
    (ws.adopt i w).Fresh := by
  obtain ⟨hfresh, hext⟩ := hw (h.worldOf i)
  intro e he
  rcases mem_pools_adopt he with ⟨heq, -⟩ | he
  · rw [heq]
    exact hfresh
  · exact fun c hc => ⟨(h e he c hc).1, (h e he c hc).2.mono hext⟩

theorem Does.fresh {r : Request} (h : Does ws r ws') (hrule : ws.sparesIdle r = true)
    (hw : ws.Fresh) : ws'.Fresh := by
  cases h with
  | quiet hq => exact hw.quiet hq
  | added =>
    intro e he
    rcases List.mem_cons.mp he with rfl | he
    · nofun
    · exact hw e he
  | cleared =>
    -- Only the forgotten session loses its variables, and no idle context is of that session.
    intro e he c hc
    refine ⟨(hw e he c hc).1, ?_⟩
    rw [Context.Current, clearSession_stores]
    exact Stores.Has.forget (hw e he c hc).2 (idle_of_sparesIdle hrule e he c hc)
  | ran hran hq => exact (hw.adopt hran.onward).quiet hq

theorem Sound.quiet (h : ws.Sound) (hq : Quiet ws ws') : ws'.Sound where
  fresh := h.fresh.quiet hq
  current x hx := by
    rcases hq.contexts x hx with ⟨y, hy, hsession, hstore⟩ | hcurrent
    · have hold := (h.current y hy).mono hq.stores
      rwa [Context.Current, hsession, hstore] at hold
    · exact hcurrent

theorem Sound.adopt {w : World} (h : ws.Sound) (hw : (ws.worldOf i).Onward w) :
    (ws.adopt i w).Sound where
  fresh := h.fresh.adopt hw
  current x hx := (h.current x hx).mono (hw (h.fresh.worldOf i)).2

theorem Does.sound {r : Request} (h : Does ws r ws') (hrule : ws.sparesContexts r = true)
    (hw : ws.Sound) : ws'.Sound := by
  have hfresh := h.fresh (Bool.and_eq_true_iff.mp hrule).1 hw.fresh
  cases h with
  | quiet hq => exact hw.quiet hq
  | added => exact ⟨hfresh, hw.current⟩
  | cleared =>
    refine ⟨hfresh, fun x hx => ?_⟩
    rw [Context.Current, clearSession_stores]
    exact Stores.Has.forget (hw.current x hx) (contexts_of_sparesContexts hrule x hx)
  | ran hran hq => exact (hw.adopt hran.onward).quiet hq

section Histories

variable {rs : List Request} {answers : List Answer}
  (h : ({} : Workspace).serveAll rs = some (answers, ws))
include h

theorem serveAll_cleared : ws.Cleared := by
  have hempty : ({} : Workspace).Cleared := List.forall_mem_nil _
  exact serveAll_induction (fun _ hs hp => (does_serve hs).cleared_pools hp) hempty h

theorem serveAll_sound (hrule : keepsTo sparesContexts {} rs = true) : ws.Sound :=
  keepsTo_induction (fun _ hr hs hp => (does_serve hs).sound hr hp) hrule
    ⟨List.forall_mem_nil _, List.forall_mem_nil _⟩ h

end Histories

/-! ## What runs while a request is served -/

/-- Serving the request takes a context of the session from the pool of the world: for a program, or
    for a call of a script function at some moment of a run. -/
inductive Takes (ws : Workspace) : Request → World → SessionId → Prop where
  | eval {interpreter i p} :
      ws.interpreters.lookup interpreter = some i →
      Takes ws (.eval interpreter p) (ws.worldOf i) i.session
  | evalText {interpreter i text b} :
      ws.interpreters.lookup interpreter = some i → parse ⟨i.config.fileName, text⟩ = .ok b →
      Takes ws (.evalText interpreter text) (ws.worldOf i) i.session
  | call {r env j m env' f args m'} :
      Starts ws r env j m → Eval.Reaches env j m env' (.script f args) m' →
      m'.ctx.depth + 1 ≤ env'.config.maxCallDepth → Takes ws r m'.world m'.ctx.session

variable {r : Request} {env : Env} {j : Eval.Job} {m : Machine} {w : World} {session : SessionId}

/-- What runs has the registry of an interpreter, and starts with its pool. -/
theorem Starts.ran (h : Starts ws r env j m) :
    ∃ i, env.registry = ws.registry i ∧ Ran (ws.registry i) (ws.worldOf i) m.world := by
  have htaken (i : Interpreter) : Ran (ws.registry i) (ws.worldOf i) (ws.taken i).world :=
    ⟨fun _ hp hw => hp.obtain _ _ hw, World.onward_obtain _ _⟩
  cases h with
  | eval => exact ⟨_, rfl, (htaken _).trans (ran_note _ _ _)⟩
  | evalText => exact ⟨_, rfl, (htaken _).trans (ran_note _ _ _)⟩
  | evalWith => exact ⟨_, rfl, ran_note _ _ _⟩
  | spawn => exact ⟨_, rfl, ran_note _ _ _⟩
  | invokeScript | invokeNative => exact ⟨_, rfl, .refl _ _⟩

theorem Takes.ran (h : ws.Takes r w session) : ∃ registry i, Ran registry (ws.worldOf i) w := by
  cases h with
  | eval | evalText => exact ⟨default, _, .refl _ _⟩
  | call hs hr =>
    obtain ⟨i, henv, hran⟩ := hs.ran
    exact ⟨_, i, hran.trans ⟨fun _ hp hw => hr.upkeep (henv ▸ hp) hw, hr.onward⟩⟩

theorem Cleared.takes (h : ws.Cleared) (ht : ws.Takes r w session) : w.pool.Cleared := by
  obtain ⟨registry, i, hran⟩ := ht.ran
  exact hran.upkeep _ (upkeep_cleared registry) (h.worldOf i)

theorem Fresh.takes (h : ws.Fresh) (ht : ws.Takes r w session) : w.Fresh := by
  obtain ⟨registry, i, hran⟩ := ht.ran
  exact (hran.onward (h.worldOf i)).1

theorem Sound.starts (h : ws.Sound) (hs : Starts ws r env j m) : m.Sound := by
  obtain ⟨i, -, hran⟩ := hs.ran
  refine ⟨(hran.onward (h.fresh.worldOf i)).1, ?_⟩
  cases hs with
  | eval | evalText => exact (h.fresh.worldOf _).obtain_current _
  | evalWith _ hc | spawn _ hc | invokeScript _ hc | invokeNative _ hc =>
    exact h.current _ (mem_of_lookup hc)

end Workspace

end TierScript
