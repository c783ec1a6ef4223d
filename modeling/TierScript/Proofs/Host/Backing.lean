import TierScript.Proofs.Host.Confinement

/-!
# Contexts refer to variables that exist

A context refers to the set of session variables that it uses. No request and no run takes a set
away, and contexts only get sets that were made. So no context ever refers to nothing, not even one
whose session was forgotten.

* `Stores.Grows`, `World.Adds`: sets are only added, and what refers to sets refers to those that
  were made. `World.tracks_adds`: that is all that runs do.
* `Workspace.Effect`: what serving a request does to pools, variables and contexts.
  `Effect.contexts`: what all contexts with names have after every request.
* `Workspace.Backed`: all references in a workspace. They are good after every history of requests
  (`Backed.serveAll`).
* `Eval.Reaches.backed`: so is the reference of the context at every moment of a run.
-/

namespace TierScript

/-! ## Sets are only added -/

namespace Stores

/-- No set of variables goes away, and sessions keep to their own sets. -/
structure Grows (s s' : Stores) : Prop where
  size : s.tables.size ≤ s'.tables.size
  apart : s.Apart → s'.Apart

variable {s s' : Stores} {id : StoreId}

theorem Grows.refl (s : Stores) : s.Grows s := ⟨Nat.le_refl _, fun h => h⟩

theorem Grows.trans {s₁ s₂ s₃ : Stores} (h : s₁.Grows s₂) (h' : s₂.Grows s₃) : s₁.Grows s₃ :=
  ⟨Nat.le_trans h.size h'.size, fun hs => h'.apart (h.apart hs)⟩

theorem Within.grows (h : s.Within id s') : s.Grows s' := ⟨Nat.le_of_eq h.size.symm, h.apart⟩

theorem grows_obtain (s : Stores) (session : SessionId) : s.Grows (s.obtain session).2 := by
  refine ⟨?_, fun h => h.obtain session⟩
  unfold Stores.obtain
  split
  · exact Nat.le_refl _
  · simp

theorem grows_forget (s : Stores) (session : SessionId) : s.Grows (s.forget session).2 :=
  ⟨Nat.le_refl _, fun h => h.forget session⟩

theorem Apart.obtain_lt (h : s.Apart) (session : SessionId) :
    (s.obtain session).1 < (s.obtain session).2.tables.size :=
  (h.obtain session).made _ _ (s.has_obtain session)

end Stores

namespace World

/-- The sets that sessions and idle contexts refer to were made. -/
structure Backed (w : World) : Prop where
  apart : w.stores.Apart
  idle : ∀ c ∈ w.pool.idle, c.store < w.stores.tables.size

/-- From the first world to the second one no set goes away, and what sessions and idle contexts
    refer to stays made. -/
structure Adds (w w' : World) : Prop where
  size : w.stores.tables.size ≤ w'.stores.tables.size
  backed : w.Backed → w'.Backed

variable {w w' : World} {session : SessionId} {c : Context}

theorem Adds.trans {w₁ w₂ w₃ : World} (h : w₁.Adds w₂) (h' : w₂.Adds w₃) : w₁.Adds w₃ :=
  ⟨Nat.le_trans h.size h'.size, fun hw => h'.backed (h.backed hw)⟩

theorem Adds.of_grows (hs : w.stores.Grows w'.stores)
    (hp : ∀ c ∈ w'.pool.idle, c ∈ w.pool.idle) : w.Adds w' where
  size := hs.size
  backed hw := ⟨hs.apart hw.apart, fun c hc => Nat.lt_of_lt_of_le (hw.idle c (hp c hc)) hs.size⟩

theorem adds_obtain (w : World) (session : SessionId) : w.Adds (w.obtain session).2 := by
  refine .of_grows ?_ fun c hc => mem_idle_of_obtain hc
  rcases w.obtain_cases session with ⟨-, -, -, hstores⟩ | ⟨-, hstores⟩
  · rw [hstores]
    exact .refl _
  · rw [hstores]
    exact w.stores.grows_obtain session

/-- What the pool hands out refers to a set that was made. -/
theorem Backed.obtain_lt (h : w.Backed) (session : SessionId) :
    (w.obtain session).1.store < (w.obtain session).2.stores.tables.size := by
  rcases w.obtain_cases session with ⟨c, hc, hstore, hstores⟩ | ⟨hstore, hstores⟩
  · rw [hstore, hstores]
    exact h.idle c hc
  · rw [hstore, hstores]
    exact h.apart.obtain_lt session

theorem Backed.release (h : w.Backed) (hc : c.store < w.stores.tables.size) :
    (w.release c).Backed := by
  refine ⟨h.apart, ?_⟩
  unfold World.release Pool.release
  dsimp only
  split
  · exact List.forall_mem_cons.mpr ⟨hc, h.idle⟩
  · exact h.idle

/-- A context that was taken from the pool goes back with its reference. -/
theorem adds_loan (hw : (w.obtain session).2.Adds w')
    (hstore : c.store = (w.obtain session).1.store) : w.Adds (w'.release c) where
  size := Nat.le_trans (w.adds_obtain session).size hw.size
  backed h := by
    have hback := (w.adds_obtain session).trans hw |>.backed h
    have hlt := Nat.lt_of_lt_of_le (h.obtain_lt session) hw.size
    exact hback.release (hstore ▸ hlt)

theorem tracks_adds : Tracks Adds where
  trans := .trans
  still hp hs := .of_grows (hs ▸ .refl _) fun _ hc => hp ▸ hc
  write m v value := .of_grows (m.write_within v value).grows fun _ hc => hc
  obtain := adds_obtain
  loan hw _ hstore := adds_loan hw hstore

end World

/-! ## Moments of a run -/

namespace Eval

open Machine World

variable {env env' : Env} {j j' : Job} {m m' : Machine}

theorem Enters.backed (he : Enters env j m env' j' m') (h : m.Backed) (hw : m.world.Backed) :
    m'.Backed := by
  rcases he.ctx_cases with ⟨-, hstore⟩ | ⟨f, args, r, hcall⟩
  · rw [Machine.Backed, hstore]
    exact Nat.lt_of_lt_of_le h (tracks_adds.enters he).size
  · have hstore := m.enterCall_store f args
    rw [hcall] at hstore
    cases hcall
    rw [Machine.Backed, hstore]
    exact hw.obtain_lt m.ctx.session

/-- From a context that refers to a set that was made, a run comes only to such contexts. -/
theorem Reaches.backed (hr : Reaches env j m env' j' m') (h : m.Backed) (hw : m.world.Backed) :
    m'.Backed := by
  induction hr with
  | here => exact h
  | part he _ ih => exact ih (he.backed h hw) ((tracks_adds.enters he).backed hw)

end Eval

/-! ## What requests do to variables and contexts -/

namespace Workspace

/-- What serving a request does to the pools, to the variables and to the contexts with names. A run
    is known here by what holds of all runs. -/
inductive Effect (ws : Workspace) : Request → Workspace → Prop where
  /-- A new pool may have been made, and nothing else. -/
  | nothing {r ws'} :
      (∀ e ∈ ws'.pools, e ∈ ws.pools ∨ e.2.idle = []) → ws'.world.stores = ws.world.stores →
      ws'.contexts = ws.contexts → Effect ws r ws'
  /-- A run on a context that has no name. -/
  | run {r i w fresh} :
      (∀ {R}, World.Tracks R → R (ws.worldOf i) w) → Effect ws r { ws.adopt i w with fresh }
  /-- A run on a context with a name. -/
  | runOn {r i env j context c w result c' w'} :
      ws.contexts.lookup context = some c → (∀ {R}, World.Tracks R → R (ws.worldOf i) w) →
      Eval.Ends env j ⟨c, w⟩ result ⟨c', w'⟩ →
      Effect ws r ((ws.adopt i w').setContext context c')
  | created {name session} :
      Effect ws (.newContext name session)
        ((ws.newContext session).2.setContext name (ws.newContext session).1)
  | derived {context name c} :
      ws.contexts.lookup context = some c →
      Effect ws (.derive context name) (ws.setContext name c.derive)
  | adjusted {context f c} :
      ws.contexts.lookup context = some c →
      Effect ws (.adjust context f)
        (ws.setContext context { f c with session := c.session, store := c.store })
  | written {context v value c} :
      ws.contexts.lookup context = some c →
      Effect ws (.write context v value)
        ((ws.write c v value).2.setContext context (ws.write c v value).1)
  | sessionVars {session f} :
      Effect ws (.sessionVars session f)
        (ws.withStores
          ((ws.world.stores.obtain session).2.update (ws.world.stores.obtain session).1 f))
  | globalVars {f} :
      Effect ws (.globalVars f)
        (ws.withStores { ws.world.stores with global := f ws.world.stores.global })
  | cleared {session} : Effect ws (.clearSession session) (ws.clearSession session).2

variable {ws ws' : Workspace} {i : Interpreter} {req : Request}

theorem Effect.refl (ws : Workspace) (req : Request) : Effect ws req ws :=
  .nothing (fun _ he => .inl he) rfl rfl

theorem Noted.tracks {R : World → World → Prop} {w w' : World} (h : Noted w w')
    (hR : World.Tracks R) : R w w' := by
  cases h with
  | still => exact hR.refl w
  | note e => exact hR.note w e

theorem effect_serve {a : Answer} (h : ws.serve req = some (a, ws')) : Effect ws req ws' := by
  -- Most requests leave the variables and the contexts alone, and make no pool.
  have quiet {ws' : Workspace} (hp : ws'.pools = ws.pools)
      (hs : ws'.world.stores = ws.world.stores) (hc : ws'.contexts = ws.contexts) :
      Effect ws req ws' := .nothing (fun _ he => .inl (hp ▸ he)) hs hc
  cases serves_of_serve h with
  | nothing => exact .refl ws req
  | addInterpreter =>
    refine .nothing (fun e he => ?_) rfl rfl
    rcases List.mem_cons.mp he with rfl | he
    · exact .inr rfl
    · exact .inl he
  | cloneInterpreter | dropInterpreter | load | drain => exact quiet rfl rfl rfl
  | @dropProgram name emptyDrawer => cases emptyDrawer <;> exact quiet rfl rfl rfl
  | register =>
    unfold Workspace.register
    split <;> exact quiet rfl rfl rfl
  | registerModule =>
    unfold Workspace.registerModule
    split
    · exact quiet rfl rfl rfl
    · split <;> exact quiet rfl rfl rfl
  | newContext => exact .created
  | derive hc => exact .derived hc
  | adjust hc => exact .adjusted hc
  | write hc => exact .written hc
  | sessionVars => exact .sessionVars
  | globalVars => exact .globalVars
  | clearSession => exact .cleared
  | ranPooled _ _ hends => exact .run fun hR => hR.loaned hends
  | ranOn _ _ hnoted hc hends => exact .runOn hc hnoted.tracks hends
  | ranApart _ _ hends hnoted =>
    exact .run fun hR => hR.trans (hR.trans (hR.note _ _) (hR.ends hends)) (hnoted.tracks hR)

/-- What new and derived contexts have, and no run and no write takes away, all contexts with names
    keep, if no request takes it away. -/
theorem Effect.contexts {q : Context → Prop} (h : Effect ws req ws')
    (hframed : ∀ {c c'}, c.Framed c' → q c → q c')
    (hcreate : ∀ s session, q (Context.create s session).1) (hderive : ∀ c, q c → q c.derive)
    (hadjust : ∀ {context f}, req = .adjust context f →
      ∀ c : Context, q c → q { f c with session := c.session, store := c.store })
    (hq : ∀ x ∈ ws.contexts, q x.2) : ∀ x ∈ ws'.contexts, q x.2 := by
  have put {name : String} {c : Context} (hc : q c) : ∀ x ∈ ws.contexts.put name c, q x.2 := by
    intro x hx
    rcases Named.mem_put hx with rfl | hx
    · exact hc
    · exact hq x hx
  have found {context : String} {c : Context} (hc : ws.contexts.lookup context = some c) : q c :=
    hq _ (mem_of_lookup hc)
  cases h with
  | nothing _ _ hc => exact hc ▸ hq
  | run | sessionVars | globalVars | cleared => exact hq
  | runOn hc _ hends => exact put (hframed hends.restores.1 (found hc))
  | created => exact put (hcreate _ _)
  | derived hc => exact put (hderive _ (found hc))
  | adjusted hc => exact put (hadjust rfl _ (found hc))
  | @written _ v value c hc =>
    exact put (hframed (.of_control (c.write_control ws.world.stores v value)) (found hc))

/-- What runs while a request is served starts with a world that runs may come to. -/
theorem Starts.tracks {env : Env} {j : Eval.Job} {m : Machine} (h : Starts ws req env j m) :
    ∃ i, ∀ {R}, World.Tracks R → R (ws.worldOf i) m.world := by
  cases h with
  | @eval _ i | @evalText _ i =>
    exact ⟨i, fun hR => hR.trans (hR.obtain _ i.session) (hR.note _ _)⟩
  | evalWith | spawn => exact ⟨_, fun hR => hR.note _ _⟩
  | invokeScript | invokeNative => exact ⟨_, fun hR => hR.refl _⟩

end Workspace

/-! ## Histories of requests -/

namespace Workspace

/-- The sets that sessions, idle contexts and named contexts refer to were made. -/
structure Backed (ws : Workspace) : Prop where
  apart : ws.world.stores.Apart
  idle : ∀ e ∈ ws.pools, ∀ c ∈ e.2.idle, c.store < ws.world.stores.tables.size
  contexts : ∀ x ∈ ws.contexts, x.2.store < ws.world.stores.tables.size

variable {ws ws' : Workspace} {i : Interpreter}

namespace Backed

theorem empty : Backed {} := ⟨Stores.apart_empty, List.forall_mem_nil _, List.forall_mem_nil _⟩

theorem worldOf (h : ws.Backed) (i : Interpreter) : (ws.worldOf i).Backed :=
  worldOf_of_pools (q := World.Backed) (fun e he => ⟨h.apart, h.idle e he⟩)
    ⟨h.apart, List.forall_mem_nil _⟩ i

theorem lookup (h : ws.Backed) {context : String} {c : Context}
    (hc : ws.contexts.lookup context = some c) : c.store < ws.world.stores.tables.size :=
  h.contexts _ (mem_of_lookup hc)

theorem stores (h : ws.Backed) {stores : Stores} (hs : ws.world.stores.Grows stores) :
    (ws.withStores stores).Backed where
  apart := hs.apart h.apart
  idle e he c hc := Nat.lt_of_lt_of_le (h.idle e he c hc) hs.size
  contexts x hx := Nat.lt_of_lt_of_le (h.contexts x hx) hs.size

theorem setContext (h : ws.Backed) (name : String) {c : Context}
    (hc : c.store < ws.world.stores.tables.size) : (ws.setContext name c).Backed where
  apart := h.apart
  idle := h.idle
  contexts x hx := by
    rcases Named.mem_put hx with rfl | hx
    · exact hc
    · exact h.contexts x hx

/-- A context takes the place of one with the same reference. -/
theorem replace (h : ws.Backed) {context : String} {c c' : Context}
    (hc : ws.contexts.lookup context = some c) (hstore : c'.store = c.store) (name : String) :
    (ws.setContext name c').Backed :=
  h.setContext name (hstore ▸ h.lookup hc)

theorem adopt (h : ws.Backed) {w : World} (hw : (ws.worldOf i).Adds w) : (ws.adopt i w).Backed := by
  have hworld := hw.backed (h.worldOf i)
  refine ⟨hworld.apart, fun e he => ?_, fun x hx => Nat.lt_of_lt_of_le (h.contexts x hx) hw.size⟩
  rcases mem_pools_adopt he with ⟨heq, -⟩ | he
  · rw [heq]
    exact hworld.idle
  · exact fun c hc => Nat.lt_of_lt_of_le (h.idle e he c hc) hw.size

theorem serve (h : ws.Backed) {r : Request} {a : Answer} (hserve : ws.serve r = some (a, ws')) :
    ws'.Backed := by
  cases effect_serve hserve with
  | nothing hp hs hc =>
    refine ⟨hs ▸ h.apart, fun e he => ?_, hc ▸ hs ▸ h.contexts⟩
    rcases hp e he with he | hidle
    · exact hs ▸ h.idle e he
    · exact hidle ▸ List.forall_mem_nil _
  | run hw =>
    have hrun := h.adopt (hw World.tracks_adds)
    exact ⟨hrun.apart, hrun.idle, hrun.contexts⟩
  | runOn hc hw hends =>
    have hadds := World.tracks_adds.trans (hw World.tracks_adds) (World.tracks_adds.ends hends)
    exact (h.adopt hadds).replace hc hends.restores.1.store _
  | @created name session =>
    have hgrown := h.stores (ws.world.stores.grows_obtain session)
    exact hgrown.setContext name (h.apart.obtain_lt session)
  | derived hc | adjusted hc =>
    have hlt := h.lookup hc
    exact h.setContext _ hlt
  | @written context v value c hc =>
    have hwritten := h.stores (c.write_within ws.world.stores v value).grows
    have hcontrol := Context.control_eq_iff.mp (c.write_control ws.world.stores v value)
    exact hwritten.replace hc hcontrol.2.1 context
  | @sessionVars session f =>
    have hmade := ws.world.stores.grows_obtain session
    exact h.stores (hmade.trans (Stores.update_within _ _ f).grows)
  | globalVars => exact ⟨⟨h.apart.made, h.apart.separate⟩, h.idle, h.contexts⟩
  | @cleared session =>
    have hcleared := h.stores (ws.world.stores.grows_forget session)
    unfold Workspace.clearSession
    dsimp only
    split <;> exact ⟨hcleared.apart, hcleared.idle, hcleared.contexts⟩

theorem serveAll (h : ws.Backed) {rs : List Request} {answers : List Answer}
    (hserve : ws.serveAll rs = some (answers, ws')) : ws'.Backed :=
  serveAll_induction (fun _ hs hp => hp.serve hs) h hserve

/-- What runs while a request is served starts with good references. -/
theorem starts (h : ws.Backed) {r : Request} {env : Env} {j : Eval.Job} {m : Machine}
    (hs : Starts ws r env j m) : m.Backed ∧ m.world.Backed := by
  obtain ⟨i, htracks⟩ := hs.tracks
  refine ⟨?_, (htracks World.tracks_adds).backed (h.worldOf i)⟩
  cases hs with
  | @eval _ i | @evalText _ i => exact (h.worldOf i).obtain_lt i.session
  | evalWith _ hc | spawn _ hc | invokeScript _ hc | invokeNative _ hc =>
    have hlt := h.lookup hc
    exact hlt

end Backed

/-- At every moment of every run, after any requests, the context refers to variables that exist. -/
theorem backed_of_reaches {rs : List Request} {answers : List Answer} {r : Request} {env env' : Env}
    {j j' : Eval.Job} {m m' : Machine}
    (hserved : ({} : Workspace).serveAll rs = some (answers, ws)) (hs : Starts ws r env j m)
    (hr : Eval.Reaches env j m env' j' m') : m'.Backed := by
  obtain ⟨hctx, hworld⟩ := (Backed.empty.serveAll hserved).starts hs
  exact hr.backed hctx hworld

end Workspace

end TierScript
