import TierScript.Proofs.Run.Underway

/-!
# Contexts from the pool

A context that was given back keeps its session and the variables of that session. If the session
was forgotten in the meantime, these are not the variables that the session has now.

* `World.likeNew_iff`: what the pool hands out is exactly a new context of the session, unless the
  context on top is `Stale`: it was last used for that session, and the session has other variables
  now, or none.
* `Ends.onward`: no run makes a context stale. A pool whose contexts are all `Fresh` stays so.
* `Reaches.sound`: from there, every context that a run works on uses the variables that its session
  has now.
-/

namespace TierScript

/-! ## The variables that a session has -/

/-- Removing an entry does not change what is found under another key. -/
theorem lookup_filter_ne {α β : Type} [BEq α] [LawfulBEq α] (l : List (α × β)) {a b : α}
    (h : a ≠ b) : (l.filter fun e => e.1 != b).lookup a = l.lookup a := by
  induction l with
  | nil => rfl
  | cons e l ih =>
    obtain ⟨k, v⟩ := e
    by_cases hk : k = b
    · have hak : (a == k) = false := beq_eq_false_iff_ne.mpr (hk ▸ h)
      simp [List.lookup_cons, hk ▸ hak, hk, ih]
    · simp [List.lookup_cons, hk, ih]

namespace Stores

/-- The session has the given set of variables now. -/
def Has (s : Stores) (session : SessionId) (id : StoreId) : Prop :=
  s.sessions.lookup session = some id

/-- No session loses the variables that it has. -/
def Extends (s s' : Stores) : Prop := ∀ session id, s.Has session id → s'.Has session id

variable {s s' : Stores} {session other : SessionId} {id : StoreId}

theorem Extends.refl (s : Stores) : s.Extends s := fun _ _ h => h

theorem Extends.trans {s₁ s₂ s₃ : Stores} (h : s₁.Extends s₂) (h' : s₂.Extends s₃) :
    s₁.Extends s₃ := fun session id hs => h' session id (h session id hs)

theorem Extends.of_sessions (h : s'.sessions = s.sessions) : s.Extends s' := by
  intro session id hs
  rw [Has, h]
  exact hs

theorem Has.obtain (h : s.Has session id) : s.obtain session = (id, s) := by
  unfold Stores.obtain
  rw [show s.sessions.lookup session = some id from h]

theorem has_obtain (s : Stores) (session : SessionId) :
    (s.obtain session).2.Has session (s.obtain session).1 := by
  unfold Stores.obtain
  split
  · next h => exact h
  · simp [Has]

theorem extends_obtain (s : Stores) (session : SessionId) :
    s.Extends (s.obtain session).2 := by
  intro other id h
  unfold Stores.obtain
  split
  · exact h
  · next hnone =>
    have hne : other ≠ session := by
      rintro rfl
      rw [show s.sessions.lookup other = some id from h] at hnone
      cases hnone
    have hbeq : (other == session) = false := beq_eq_false_iff_ne.mpr hne
    simpa [Has, List.lookup_cons, hbeq] using h

theorem Has.forget (h : s.Has session id) (hne : session ≠ other) :
    (s.forget other).2.Has session id :=
  (lookup_filter_ne s.sessions hne).trans h

end Stores

/-! ## What the pool hands out -/

/-- The context uses the variables that its session has now. -/
def Context.Current (c : Context) (s : Stores) : Prop := s.Has c.session c.store

namespace Context

variable {c : Context} {s s' : Stores}

theorem Current.mono (h : c.Current s) (hs : s.Extends s') : c.Current s' := hs _ _ h

theorem current_create (s : Stores) (session : SessionId) :
    (create s session).1.Current (create s session).2 := s.has_obtain session

theorem write_sessions (c : Context) (s : Stores) (v : Var) (value : Value) :
    (c.write s v value).2.sessions = s.sessions := by
  unfold write
  cases v.tier <;> rfl

end Context

/-- All idle contexts were cleared. -/
def Pool.Cleared (p : Pool) : Prop := ∀ c ∈ p.idle, c.reset = c

theorem upkeep_cleared (registry : Registry) : Upkeep registry fun w => w.pool.Cleared :=
  upkeep_idle (fun _ => rfl) registry

namespace World

variable {w w' : World} {session : SessionId}

/-- The pool hands out a new context of the session, and has the same effect on the variables as
    making one. -/
def LikeNew (w : World) (session : SessionId) : Prop :=
  ((w.obtain session).1, (w.obtain session).2.stores) = Context.create w.stores session

/-- The context on top of the pool was used for the session last, but with other variables than the
    session has now. -/
def Stale (w : World) (session : SessionId) : Prop :=
  ∃ c, w.pool.idle.head? = some c ∧ c.session = session ∧ ¬ c.Current w.stores

instance (c : Context) (s : Stores) : Decidable (c.Current s) :=
  inferInstanceAs (Decidable (s.sessions.lookup c.session = some c.store))

instance (w : World) (session : SessionId) : Decidable (w.Stale session) :=
  decidable_of_iff
    (w.pool.idle.head?.any fun c => c.session = session ∧ ¬ c.Current w.stores) <| by
    unfold Stale
    cases w.pool.idle.head? <;> simp

theorem likeNew_iff (h : w.pool.Cleared) : w.LikeNew session ↔ ¬ w.Stale session := by
  unfold LikeNew Stale World.obtain Pool.obtain
  cases hidle : w.pool.idle with
  | nil => simp
  | cons c rest =>
    have hc : c.reset = c := h c (by rw [hidle]; exact List.mem_cons_self)
    by_cases hs : c.session = session
    · subst hs
      have hcurrent : (c, w.stores) = Context.create w.stores c.session ↔ c.Current w.stores := by
        constructor
        · intro heq
          have hnew := Context.current_create w.stores c.session
          rw [← heq] at hnew
          exact hnew
        · intro hc'
          rw [Context.create, hc'.obtain, ← hc]
          rfl
      simpa [Context.rebind] using hcurrent
    · -- A context of another session is moved, and then only the session and its variables differ.
      have hmoved (store : StoreId) :
          { c with session, store } = ({ session, store } : Context) := by
        rw [← hc]
        rfl
      simp [Context.rebind, hs, Context.create, hmoved]

theorem obtain_session (w : World) (session : SessionId) :
    (w.obtain session).1.session = session := by
  unfold World.obtain Pool.obtain
  cases w.pool.idle with
  | nil => rfl
  | cons c rest =>
    simp only [Context.rebind]
    split
    · next hs => exact hs
    · rfl

/-- Either the pool hands out an idle context with the variables that it has used, or the context
    gets those that the session has now. -/
theorem obtain_cases (w : World) (session : SessionId) :
    (∃ c ∈ w.pool.idle, (w.obtain session).1.store = c.store ∧
      (w.obtain session).2.stores = w.stores) ∨
    (w.obtain session).1.store = (w.stores.obtain session).1 ∧
      (w.obtain session).2.stores = (w.stores.obtain session).2 := by
  unfold World.obtain Pool.obtain
  cases w.pool.idle with
  | nil => exact .inr ⟨rfl, rfl⟩
  | cons c rest =>
    simp only [Context.rebind]
    split
    · exact .inl ⟨c, List.mem_cons_self, rfl, rfl⟩
    · exact .inr ⟨rfl, rfl⟩

theorem mem_idle_of_obtain {w : World} {session : SessionId} {c : Context}
    (h : c ∈ (w.obtain session).2.pool.idle) : c ∈ w.pool.idle := by
  unfold World.obtain Pool.obtain at h
  cases hidle : w.pool.idle with
  | nil => simp [hidle] at h
  | cons top rest =>
    rw [hidle] at h
    exact List.mem_cons_of_mem top h

/-! ## Fresh pools -/

/-- All idle contexts were cleared, and use the variables that their sessions have now. -/
def Fresh (w : World) : Prop := ∀ c ∈ w.pool.idle, c.reset = c ∧ c.Current w.stores

theorem Fresh.cleared (h : w.Fresh) : w.pool.Cleared := fun c hc => (h c hc).1

theorem Fresh.not_stale (h : w.Fresh) : ¬ w.Stale session := by
  rintro ⟨c, htop, -, hstale⟩
  exact hstale (h c (List.mem_of_head? htop)).2

theorem Fresh.likeNew (h : w.Fresh) (session : SessionId) : w.LikeNew session :=
  (likeNew_iff h.cleared).mpr h.not_stale

/-- What is handed out by a fresh pool uses the variables that its session has then. -/
theorem Fresh.obtain_current (h : w.Fresh) (session : SessionId) :
    (w.obtain session).1.Current (w.obtain session).2.stores := by
  obtain ⟨hctx, hstores⟩ := Prod.mk.inj (h.likeNew session)
  rw [hctx, hstores]
  exact Context.current_create w.stores session

theorem Fresh.obtain_extends (h : w.Fresh) (session : SessionId) :
    w.stores.Extends (w.obtain session).2.stores := by
  rw [(Prod.mk.inj (h.likeNew session)).2]
  exact w.stores.extends_obtain session

/-- From the first world to the second one the pool stays fresh, and no session loses its
    variables. -/
def Onward (w w' : World) : Prop := w.Fresh → w'.Fresh ∧ w.stores.Extends w'.stores

theorem Onward.refl (w : World) : w.Onward w := fun h => ⟨h, .refl _⟩

theorem Onward.trans {w₁ w₂ w₃ : World} (h : w₁.Onward w₂) (h' : w₂.Onward w₃) :
    w₁.Onward w₃ := by
  intro hw
  obtain ⟨h₂, hs₂⟩ := h hw
  obtain ⟨h₃, hs₃⟩ := h' h₂
  exact ⟨h₃, hs₂.trans hs₃⟩

theorem Onward.of_sessions (hp : w'.pool = w.pool) (hs : w'.stores.sessions = w.stores.sessions) :
    w.Onward w' := by
  intro h
  have hext := Stores.Extends.of_sessions hs
  refine ⟨?_, hext⟩
  intro c hc
  rw [hp] at hc
  exact ⟨(h c hc).1, (h c hc).2.mono hext⟩

theorem onward_note (w : World) (e : Event) : w.Onward (w.note e) := .of_sessions rfl rfl

theorem onward_obtain (w : World) (session : SessionId) : w.Onward (w.obtain session).2 := by
  intro h
  have hext := h.obtain_extends session
  refine ⟨fun c hc => ?_, hext⟩
  obtain ⟨hreset, hcurrent⟩ := h c (mem_idle_of_obtain hc)
  exact ⟨hreset, hcurrent.mono hext⟩

theorem onward_release {c : Context} (hc : c.Current w.stores) : w.Onward (w.release c) := by
  intro h
  refine ⟨?_, .refl _⟩
  unfold Fresh World.release Pool.release
  dsimp only
  split
  · intro c' hc'
    rcases List.mem_cons.mp hc' with rfl | hc'
    · exact ⟨rfl, hc⟩
    · exact h c' hc'
  · exact h

/-- A context that was taken from the pool goes back with its session and its variables. -/
theorem onward_loan {c : Context} (hw : (w.obtain session).2.Onward w')
    (hsession : c.session = session) (hstore : c.store = (w.obtain session).1.store) :
    w.Onward (w'.release c) := by
  intro h
  obtain ⟨hfresh, hext⟩ := (w.onward_obtain session).trans hw h
  have hcurrent : c.Current w'.stores := by
    have htaken := (h.obtain_current session).mono (hw (w.onward_obtain session h).1).2
    rw [Context.Current, obtain_session] at htaken
    rw [Context.Current, hsession, hstore]
    exact htaken
  exact ⟨(onward_release hcurrent hfresh).1, hext⟩

end World

/-! ## What a run does to the world -/

/-- The relation holds between the worlds before and after all that runs do. A context that is taken
    from the pool only goes back with the session and the variables it was given. -/
structure World.Tracks (R : World → World → Prop) : Prop where
  trans : ∀ {w₁ w₂ w₃}, R w₁ w₂ → R w₂ w₃ → R w₁ w₃
  still : ∀ {w w' : World}, w'.pool = w.pool → w'.stores = w.stores → R w w'
  write : ∀ (m : Machine) (v : Var) (value : Value), R m.world (m.write v value).world
  obtain : ∀ w session, R w (w.obtain session).2
  loan : ∀ {w w' session c}, R (w.obtain session).2 w' → c.session = session →
    c.store = (w.obtain session).1.store → R w (w'.release c)

namespace Machine

variable {m m' : Machine}

theorem Recalls.stores (h : m.Recalls m') : m'.world.stores = m.world.stores := by
  obtain ⟨_, _, _, rfl⟩ := h
  rfl

theorem framed_write (m : Machine) (v : Var) (value : Value) :
    m.ctx.Framed (m.write v value).ctx := .of_control (write_control m v value)

/-- The context on which the body of a script function starts. -/
theorem enterCall_control (m : Machine) (f : FnDef) (args : List Expr) :
    (m.enterCall f args).2.ctx.control =
      Context.control { (m.world.obtain m.ctx.session).1 with depth := m.ctx.depth + 1 } :=
  bindArguments_control ..

theorem enterCall_store (m : Machine) (f : FnDef) (args : List Expr) :
    (m.enterCall f args).2.ctx.store = (m.world.obtain m.ctx.session).1.store :=
  (Context.control_eq_iff.mp (enterCall_control m f args)).2.1

theorem enterCall_session (m : Machine) (f : FnDef) (args : List Expr) :
    (m.enterCall f args).2.ctx.session = m.ctx.session :=
  (Context.control_eq_iff.mp (enterCall_control m f args)).1.trans (World.obtain_session _ _)

end Machine

namespace World.Tracks

open Machine Eval

variable {R : World → World → Prop} {env env' : Env} {j j' : Job} {m m₀ m₁ m' : Machine}
  {f : FnDef} {args : List Expr}

section Operations

variable (h : Tracks R)
include h

theorem refl (w : World) : R w w := h.still rfl rfl

theorem note (w : World) (e : Event) : R w (w.note e) := h.still rfl rfl

theorem recalls (hr : m.Recalls m') : R m.world m'.world := h.still hr.pool hr.stores

theorem assign {target : Var} {value : Expr} {r : Except EvalError Unit}
    (ha : m.assign target value = (r, m')) : R m.world m'.world := by
  unfold Machine.assign at ha
  split at ha
  · cases ha; exact h.write m target _
  · cases ha; exact h.refl _

theorem answer {a a₁ : Action} (ha : a.answer? m = some (a₁, m')) : R m.world m'.world := by
  cases a with
  | done | fail | run | runApart | spawn => cases ha
  | write v value => cases ha; exact h.write m v value
  | print | keep | note => cases ha; exact h.still rfl rfl
  | evaluate | look | claim | enterLoop | exitLoop | breakLoop | setExit | clearExit | kept =>
    cases ha
    exact h.refl _

theorem copyBack (f : FnDef) (args : List Expr) (callee : Context) (outs : List Nat)
    (m : Machine) : R m.world (copyBack f args callee m outs).world := by
  induction outs generalizing m with
  | nil => exact h.refl _
  | cons position rest ih =>
    rw [Machine.copyBack]
    split
    · exact h.trans (h.write m _ _) (ih _)
    · exact ih m

theorem enterCall {r : Except ArithError Unit} (he : m.enterCall f args = (r, m')) :
    R m.world m'.world := by
  cases he
  exact h.obtain m.world m.ctx.session

/-- A call gives its context back with the session and the variables it was given. -/
theorem call {r : Except ArithError Unit} (he : m.enterCall f args = (r, m₀))
    (hframe : m₀.ctx.Framed m₁.ctx) {w : World} (hw : R m₀.world w) :
    R m.world (w.release m₁.ctx) := by
  have hsession := m.enterCall_session f args
  have hstore := m.enterCall_store f args
  rw [he] at hsession hstore
  cases he
  exact h.loan hw (hframe.session.trans hsession) (hframe.store.trans hstore)

end Operations

theorem ends {r : Except EvalError Unit} (h : Tracks R) (he : Ends env j m r m') :
    R m.world m'.world := by
  induction he with
  | block _ ih | stmtsError _ _ ih | stmtBlock _ ih | ifTrue _ _ ih | ifFalse _ _ ih
  | stmtWhile _ ih | stmtFor _ _ _ ih | whileBodyError _ _ _ ih | forRange _ _ _ ih
  | forArray _ _ ih | timesError _ _ ih | invokeScript _ ih | invokeNative _ ih => exact ih
  | stmtsNil | stmtsStop | ifError | ifNone | forDestError | forSrcError | endCode | whileStop
  | whileError | whileFalse | timesStop | forEachNil | forEachStop | tooDeep | done | fail =>
    exact h.refl _
  | stmtsNext _ _ _ ih₁ ih₂ | whileNext _ _ _ _ ih₁ ih₂ | timesNext _ _ _ ih₁ ih₂
  | run _ _ ih₁ ih₂ | runApart _ _ ih₁ ih₂ => exact h.trans ih₁ ih₂
  | assign ha => exact h.assign ha
  | breakLoop hb => rw [breakOut_world hb]; exact h.refl _
  | callError hr => exact h.recalls (resolve_recalls hr)
  | call hr _ ih => exact h.trans (h.recalls (resolve_recalls hr)) ih
  | moduleCallError hr => exact h.recalls (resolveModuleCall_recalls hr)
  | moduleCall hr _ ih => exact h.trans (h.recalls (resolveModuleCall_recalls hr)) ih
  | forSkip => exact h.note _ _
  | forEachError _ _ ih => exact h.trans (h.write _ _ _) ih
  | forEachNext _ _ _ ih₁ ih₂ => exact h.trans (h.trans (h.write _ _ _) ih₁) ih₂
  | badArgument _ he => exact h.call he (.refl _) (h.refl _)
  | bodyError _ he hbody ih => exact h.call he hbody.restores.1 ih
  | @returned _ f args m _ m₁ _ he hbody ih =>
    have hback := h.copyBack f.node args m₁.ctx f.node.outs ⟨m.ctx, m₁.world⟩
    exact h.call he hbody.restores.1 (h.trans ih hback)
  | request ha _ ih => exact h.trans (h.answer ha) ih
  | spawnOk _ _ ih₁ ih₂ => exact h.trans (h.trans (h.note _ _) ih₁) ih₂
  | spawnError _ _ ih₁ ih₂ =>
    exact h.trans (h.trans (h.note _ _) ih₁) (h.trans (h.note _ _) ih₂)

theorem enters (h : Tracks R) (he : Enters env j m env' j' m') : R m.world m'.world := by
  cases he with
  | block | first | stmtBlock | ifTrue | ifFalse | stmtWhile | stmtFor | whileBody | forRange
  | forArray | timesBody | invokeScript | invokeNative | run | runApart => exact h.refl _
  | rest _ he | whileNext _ _ he | timesNext _ he | afterRun he | afterRunApart he =>
    have hpart := h.ends he
    exact hpart
  | call hr => exact h.recalls (resolve_recalls hr)
  | moduleCall hr => exact h.recalls (resolveModuleCall_recalls hr)
  | forEachBody => exact h.write _ _ _
  | forEachNext _ he => exact h.trans (h.write _ _ _) (h.ends he)
  | body _ he => exact h.enterCall he
  | request ha => exact h.answer ha
  | spawn => exact h.note _ _
  | afterSpawn he =>
    have hapart := h.ends he
    exact h.trans (h.note _ _) hapart
  | afterFailedSpawn he =>
    have hapart := h.ends he
    exact h.trans (h.trans (h.note _ _) hapart) (h.note _ _)

theorem reaches (h : Tracks R) (hr : Reaches env j m env' j' m') : R m.world m'.world := by
  induction hr with
  | here => exact h.refl _
  | part he _ ih => exact h.trans (h.enters he) ih

/-- A program that runs on a context from the pool, which is given back afterwards. -/
theorem loaned (h : Tracks R) {session : SessionId} {p : Linked Block} {w : World}
    {r : Except EvalError Unit}
    (he : Ends env (.block p) (begun p ⟨(w.obtain session).1, (w.obtain session).2⟩) r m') :
    R w (m'.world.release m'.ctx) := by
  have hframe := he.restores.1
  have hsession := hframe.session.trans (obtain_session w session)
  exact h.loan (h.trans (h.note _ _) (h.ends he)) hsession hframe.store

end World.Tracks

/-! ## Fresh pools stay fresh -/

namespace Machine

variable {m m' : Machine}

theorem onward_write (m : Machine) (v : Var) (value : Value) :
    m.world.Onward (m.write v value).world :=
  .of_sessions rfl (Context.write_sessions m.ctx m.world.stores v value)

theorem enterCall_current (h : m.world.Fresh) (f : FnDef) (args : List Expr) :
    (m.enterCall f args).2.ctx.Current (m.enterCall f args).2.world.stores := by
  have hcurrent := h.obtain_current m.ctx.session
  rw [Context.Current, World.obtain_session] at hcurrent
  rw [Context.Current, enterCall_store, enterCall_session]
  exact hcurrent

end Machine

theorem World.tracks_onward : Tracks Onward where
  trans := .trans
  still hp hs := .of_sessions hp (by rw [hs])
  write := Machine.onward_write
  obtain := onward_obtain
  loan := onward_loan

namespace Eval

open World

variable {env env' : Env} {j j' : Job} {m m' : Machine}

/-- A run makes no idle context stale, and no session loses its variables. -/
theorem Ends.onward {r : Except EvalError Unit} (h : Ends env j m r m') :
    m.world.Onward m'.world := tracks_onward.ends h

end Eval

/-! ## Moments of a run -/

/-- The pool is fresh, and the current context uses the variables that its session has now. -/
structure Machine.Sound (m : Machine) : Prop where
  fresh : m.world.Fresh
  current : m.ctx.Current m.world.stores

namespace Machine

open World

variable {m m' : Machine}

/-- The context may change, its session and the variables of the session apart. -/
theorem Sound.onward (h : m.Sound) (hw : m.world.Onward m'.world)
    (hsession : m'.ctx.session = m.ctx.session) (hstore : m'.ctx.store = m.ctx.store) :
    m'.Sound := by
  obtain ⟨hfresh, hext⟩ := hw h.fresh
  refine ⟨hfresh, ?_⟩
  rw [Context.Current, hsession, hstore]
  exact h.current.mono hext

theorem Sound.enterCall (h : m.Sound) {f : FnDef} {args : List Expr}
    {r : Except ArithError Unit} (he : m.enterCall f args = (r, m')) : m'.Sound := by
  have hcurrent := enterCall_current h.fresh f args
  rw [he] at hcurrent
  exact ⟨(tracks_onward.enterCall he h.fresh).1, hcurrent⟩

end Machine

namespace Eval

open Machine World

variable {env env' : Env} {j j' : Job} {m m' : Machine}

theorem Enters.onward (he : Enters env j m env' j' m') : m.world.Onward m'.world :=
  tracks_onward.enters he

/-- At every moment of a run that starts with a fresh pool, the pool is fresh. -/
theorem Reaches.onward (hr : Reaches env j m env' j' m') : m.world.Onward m'.world :=
  tracks_onward.reaches hr

/-- A part of a run is on a context of the same session with the same variables, unless it is the
    body of a call. -/
theorem Enters.ctx_cases (he : Enters env j m env' j' m') :
    (m'.ctx.session = m.ctx.session ∧ m'.ctx.store = m.ctx.store) ∨
      ∃ f args r, m.enterCall f args = (r, m') := by
  have framed {c : Context} (h : m.ctx.Framed c) :
      c.session = m.ctx.session ∧ c.store = m.ctx.store := ⟨h.session, h.store⟩
  cases he with
  | body _ he => exact .inr ⟨_, _, _, he⟩
  | stmtBlock | ifTrue | ifFalse | stmtWhile | stmtFor | whileBody | forRange | forArray | timesBody
  | invokeScript | invokeNative | run | runApart | afterRunApart | spawn | afterSpawn
  | afterFailedSpawn => exact .inl ⟨rfl, rfl⟩
  | block => exact .inl ⟨enterBlock_session .., enterBlock_store ..⟩
  | first => exact .inl (framed (Context.framed_offer m.ctx _))
  | rest _ he => exact .inl (framed ((Context.framed_offer m.ctx _).trans he.restores.1))
  | whileNext _ _ he | timesNext _ he | afterRun he => exact .inl (framed he.restores.1)
  | call hr => exact .inl (by rw [resolve_ctx hr]; exact ⟨rfl, rfl⟩)
  | moduleCall hr => exact .inl (by rw [resolveModuleCall_ctx hr]; exact ⟨rfl, rfl⟩)
  | forEachBody => exact .inl (framed (framed_write m _ _))
  | forEachNext _ he => exact .inl (framed ((framed_write m _ _).trans he.restores.1))
  | request ha => exact .inl (framed (Action.framed_answer ha))

theorem Enters.sound (he : Enters env j m env' j' m') (h : m.Sound) : m'.Sound := by
  rcases he.ctx_cases with ⟨hsession, hstore⟩ | ⟨f, args, r, hcall⟩
  · exact h.onward he.onward hsession hstore
  · exact h.enterCall hcall

/-- From a machine whose pool is fresh and whose context is current, a run comes only to such
    machines. -/
theorem Reaches.sound (hr : Reaches env j m env' j' m') (h : m.Sound) : m'.Sound := by
  induction hr with
  | here => exact h
  | part he _ ih => exact ih (he.sound h)

end Eval

end TierScript
