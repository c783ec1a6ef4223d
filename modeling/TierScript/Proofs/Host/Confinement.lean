import TierScript.Proofs.Host.Sharing

/-!
# Runs keep to their session

A run on a context of a session reads and writes the variables of that session, and calls take
further contexts of the same session from the pool. The variables of other sessions are out of its
reach, as long as no two sessions have the same set of variables.

* `Stores.Within`: nothing but the variables of one set, and the global ones, have changed.
* `Ends.confined`: a run that starts on a sound machine stays within the set of its context,
  whatever host functions it calls.
* `Stores.Apart`: different sessions have different sets of variables. Making a new set keeps it so.
-/

namespace TierScript

/-! ## Changes of one set -/

namespace Stores

/-- From the first stores to the second one, only the variables of the set `id` and the global ones
    may have changed. No session gets or loses a set. -/
structure Within (id : StoreId) (s s' : Stores) : Prop where
  sessions : s'.sessions = s.sessions
  size : s'.tables.size = s.tables.size
  others : ∀ other, other ≠ id → s'.table other = s.table other

variable {id : StoreId} {s s' : Stores}

theorem Within.refl (id : StoreId) (s : Stores) : s.Within id s := ⟨rfl, rfl, fun _ _ => rfl⟩

theorem Within.of_eq (id : StoreId) (h : s' = s) : s.Within id s' := h ▸ .refl id s

theorem Within.trans {s₁ s₂ s₃ : Stores} (h : s₁.Within id s₂) (h' : s₂.Within id s₃) :
    s₁.Within id s₃ where
  sessions := h'.sessions.trans h.sessions
  size := h'.size.trans h.size
  others other hne := (h'.others other hne).trans (h.others other hne)

theorem table_update_self (f : Vars → Vars) (h : id < s.tables.size) :
    (s.update id f).table id = f (s.table id) := by
  simp only [update, table, Array.getElem?_modify]
  simp [h]

theorem table_update_ne {other : StoreId} (f : Vars → Vars) (h : other ≠ id) :
    (s.update id f).table other = s.table other := by
  simp [update, table, Array.getElem?_modify, h.symm]

theorem update_within (s : Stores) (id : StoreId) (f : Vars → Vars) :
    s.Within id (s.update id f) :=
  ⟨rfl, by simp [update], fun _ hne => table_update_ne f hne⟩

end Stores

theorem Context.write_within (c : Context) (s : Stores) (v : Var) (value : Value) :
    s.Within c.store (c.write s v value).2 := by
  unfold Context.write
  cases v.tier with
  | loc => exact .refl _ s
  | session => exact s.update_within c.store _
  | global => exact ⟨rfl, rfl, fun _ _ => rfl⟩

/-! ## Runs -/

namespace Machine

variable {m m' : Machine}

theorem write_within (m : Machine) (v : Var) (value : Value) :
    m.world.stores.Within m.ctx.store (m.write v value).world.stores :=
  m.ctx.write_within m.world.stores v value

theorem write_store (m : Machine) (v : Var) (value : Value) :
    (m.write v value).ctx.store = m.ctx.store := (framed_write m v value).store

theorem Sound.write (h : m.Sound) (v : Var) (value : Value) : (m.write v value).Sound :=
  h.onward (onward_write m v value) (framed_write m v value).session (write_store m v value)

/-- The set of session variables that the context uses was made. -/
def Backed (m : Machine) : Prop := m.ctx.store < m.world.stores.tables.size

theorem Backed.write (h : m.Backed) (v : Var) (value : Value) : (m.write v value).Backed := by
  unfold Backed
  rw [write_store, (m.write_within v value).size]
  exact h

/-- A job that runs after a variable was given a value. -/
theorem within_after_write {v : Var} {value : Value} {s : Stores} (h : m.Sound)
    (hjob : (m.write v value).Sound →
      (m.write v value).world.stores.Within (m.write v value).ctx.store s) :
    m.world.stores.Within m.ctx.store s := by
  have hthen := hjob (h.write v value)
  rw [write_store] at hthen
  exact (m.write_within v value).trans hthen

theorem assign_within {target : Var} {value : Expr} {r : Except EvalError Unit}
    (h : m.assign target value = (r, m')) :
    m.world.stores.Within m.ctx.store m'.world.stores := by
  unfold assign at h
  split at h
  · cases h; exact m.write_within target _
  · cases h; exact .refl _ _

theorem copyBack_within (f : FnDef) (args : List Expr) (callee : Context) (outs : List Nat)
    (m : Machine) :
    m.world.stores.Within m.ctx.store (copyBack f args callee m outs).world.stores := by
  induction outs generalizing m with
  | nil => exact .refl _ _
  | cons position rest ih =>
    rw [copyBack]
    split
    · next target param _ _ =>
      have hrest := ih (m.write target (callee.locals.get param))
      rw [write_store] at hrest
      exact (m.write_within _ _).trans hrest
    · exact ih m

theorem answer_within {a a₁ : Action} (h : a.answer? m = some (a₁, m')) :
    m.world.stores.Within m.ctx.store m'.world.stores := by
  cases a with
  | done | fail | run | runApart | spawn => cases h
  | write v value => cases h; exact m.write_within v value
  | evaluate | look | claim | enterLoop | exitLoop | breakLoop | setExit | clearExit | print | keep
  | kept | note =>
    cases h
    exact .refl _ _

/-- A sound machine takes a new context of its session, and no set of variables is made for it. -/
theorem Sound.obtain (h : m.Sound) :
    (m.world.obtain m.ctx.session).1 = { session := m.ctx.session, store := m.ctx.store } ∧
      (m.world.obtain m.ctx.session).2.stores = m.world.stores := by
  have hnew := h.fresh.likeNew m.ctx.session
  unfold World.LikeNew Context.create at hnew
  rw [h.current.obtain] at hnew
  exact Prod.mk.inj hnew

theorem Sound.enterCall_stores (h : m.Sound) {f : FnDef} {args : List Expr}
    {r : Except ArithError Unit} (he : m.enterCall f args = (r, m')) :
    m'.world.stores = m.world.stores := by
  cases he
  exact h.obtain.2

end Machine

namespace Eval

open Machine

variable {env env' : Env} {j j' : Job} {m m' : Machine}

/-- All parts of a run use the same set of session variables. -/
theorem Enters.store (he : Enters env j m env' j' m') (h : m.Sound) :
    m'.ctx.store = m.ctx.store := by
  rcases he.ctx_cases with ⟨-, hstore⟩ | ⟨f, args, r, hcall⟩
  · exact hstore
  · have hshares := h.shares f args
    rw [hcall] at hshares
    exact hshares

/-- A run that has kept to the set of its context up to one of its parts still does after it. -/
theorem Enters.within {r : Except EvalError Unit} {m₁ : Machine} (he : Enters env j m env' j' m')
    (h : m.Sound) (hbefore : m.world.stores.Within m.ctx.store m'.world.stores)
    (_ : Ends env' j' m' r m₁)
    (hpart : m'.Sound → m'.world.stores.Within m'.ctx.store m₁.world.stores) :
    m.world.stores.Within m.ctx.store m₁.world.stores := by
  have hthen := hpart (he.sound h)
  rw [he.store h] at hthen
  exact hbefore.trans hthen

/-- A run changes no session variables but those of its context. -/
theorem Ends.confined {r : Except EvalError Unit} (he : Ends env j m r m') (h : m.Sound) :
    m.world.stores.Within m.ctx.store m'.world.stores := by
  induction he with
  | stmtsNil | stmtsStop | ifError | ifNone | forDestError | forSrcError | endCode | whileStop
  | whileError | whileFalse | timesStop | forEachNil | forEachStop | tooDeep | done | fail
  | forSkip => exact .refl _ _
  | stmtBlock _ ih | ifTrue _ _ ih | ifFalse _ _ ih | whileBodyError _ _ _ ih | forRange _ _ _ ih
  | forArray _ _ ih | timesError _ _ ih | invokeScript _ ih | invokeNative _ ih => exact ih h
  | block h₁ ih =>
    have hbody := Enters.block.within h (.refl _ _) h₁ ih
    exact hbody
  | stmtsError ht h₁ ih => exact (Enters.first ht).within h (.refl _ _) h₁ ih
  | stmtsNext ht h₁ h₂ ih₁ ih₂ =>
    have hfirst := (Enters.first ht).within h (.refl _ _) h₁ ih₁
    exact (Enters.rest ht h₁).within h hfirst h₂ ih₂
  | assign ha => exact assign_within ha
  | stmtWhile _ ih => exact ih (h.onward (.refl _) rfl rfl)
  | stmtFor _ _ _ ih => exact ih (h.onward (.refl _) rfl rfl)
  | breakLoop hb => rw [breakOut_world hb]; exact .refl _ _
  | callError hr => exact .of_eq _ (resolve_recalls hr).stores
  | call hr h₁ ih => exact (Enters.call hr).within h (.of_eq _ (resolve_recalls hr).stores) h₁ ih
  | moduleCallError hr => exact .of_eq _ (resolveModuleCall_recalls hr).stores
  | moduleCall hr h₁ ih =>
    exact (Enters.moduleCall hr).within h (.of_eq _ (resolveModuleCall_recalls hr).stores) h₁ ih
  | whileNext ht hc h₁ h₂ ih₁ ih₂ =>
    exact (Enters.whileNext ht hc h₁).within h (ih₁ h) h₂ ih₂
  | timesNext ht h₁ h₂ ih₁ ih₂ =>
    exact (Enters.timesNext ht h₁).within h (ih₁ h) h₂ ih₂
  | forEachError _ _ ih => exact within_after_write h ih
  | forEachNext ht h₁ h₂ ih₁ ih₂ =>
    exact (Enters.forEachNext ht h₁).within h (within_after_write h ih₁) h₂ ih₂
  | @badArgument _ _ _ _ _ m₀ _ he => exact .of_eq _ (h.enterCall_stores he : m₀.world.stores = _)
  | bodyError hdeep he h₁ ih =>
    have hbody := (Enters.body hdeep he).within h (.of_eq _ (h.enterCall_stores he)) h₁ ih
    exact hbody
  | @returned _ f args m _ m₁ hdeep he h₁ ih =>
    have hbody := (Enters.body hdeep he).within h (.of_eq _ (h.enterCall_stores he)) h₁ ih
    exact hbody.trans (copyBack_within f.node args m₁.ctx f.node.outs ⟨m.ctx, m₁.world⟩)
  | request ha h₁ ih => exact (Enters.request ha).within h (answer_within ha) h₁ ih
  | run h₁ h₂ ih₁ ih₂ =>
    exact (Enters.afterRun h₁).within h (ih₁ h) h₂ ih₂
  | runApart h₁ h₂ ih₁ ih₂ =>
    have hblock := ih₁ (h.onward (.refl _) rfl rfl)
    exact (Enters.afterRunApart h₁).within h hblock h₂ ih₂
  | spawnOk h₁ h₂ ih₁ ih₂ =>
    have hblock := ih₁ (h.onward (World.onward_note _ _) rfl rfl)
    exact (Enters.afterSpawn h₁).within h hblock h₂ ih₂
  | spawnError h₁ h₂ ih₁ ih₂ =>
    have hblock := ih₁ (h.onward (World.onward_note _ _) rfl rfl)
    exact (Enters.afterFailedSpawn h₁).within h hblock h₂ ih₂

/-- The moments of a run keep to the set of its context too. -/
theorem Enters.confined (he : Enters env j m env' j' m') (h : m.Sound) :
    m.world.stores.Within m.ctx.store m'.world.stores := by
  cases he with
  | block | first | stmtBlock | ifTrue | ifFalse | stmtWhile | stmtFor | whileBody | forRange
  | forArray | timesBody | invokeScript | invokeNative | run | runApart | spawn => exact .refl _ _
  | rest _ he =>
    have hframe := Context.framed_offer m.ctx
    have hstmt := he.confined (h.onward (.refl _) (hframe _).session (hframe _).store)
    rwa [show (offering _ _ m).ctx.store = m.ctx.store from (hframe _).store] at hstmt
  | whileNext _ _ he | timesNext _ he | afterRun he => exact he.confined h
  | afterRunApart he =>
    have hblock := he.confined (h.onward (.refl _) rfl rfl)
    exact hblock
  | afterSpawn he | afterFailedSpawn he =>
    have hblock := he.confined (h.onward (World.onward_note _ _) rfl rfl)
    exact hblock
  | call hr => exact .of_eq _ (resolve_recalls hr).stores
  | moduleCall hr => exact .of_eq _ (resolveModuleCall_recalls hr).stores
  | forEachBody => exact write_within _ _ _
  | forEachNext _ he => exact within_after_write h he.confined
  | body _ he => exact .of_eq _ (h.enterCall_stores he)
  | request ha => exact answer_within ha

end Eval

/-! ## Sessions apart -/

namespace Stores

/-- The variables that a session has now; a session without a set has none. -/
def varsOf (s : Stores) (session : SessionId) : Vars :=
  ((s.sessions.lookup session).map s.table).getD {}

/-- Every set that a session has was made, and no two sessions have the same one. -/
structure Apart (s : Stores) : Prop where
  made : ∀ session id, s.Has session id → id < s.tables.size
  separate : ∀ session other id, s.Has session id → s.Has other id → session = other

variable {s s' : Stores} {session other : SessionId} {id : StoreId}

theorem apart_empty : Apart {} := ⟨nofun, nofun⟩

theorem Has.varsOf (h : s.Has session id) : s.varsOf session = s.table id := by
  rw [Stores.varsOf, show s.sessions.lookup session = some id from h]
  rfl

theorem Within.apart (h : s.Within id s') (hs : s.Apart) : s'.Apart := by
  have hhas (session : SessionId) (id : StoreId) : s'.Has session id → s.Has session id := by
    rw [Has, h.sessions]
    exact fun hs => hs
  constructor
  · intro session id hid
    rw [h.size]
    exact hs.made session id (hhas session id hid)
  · intro session other id hid hother
    exact hs.separate session other id (hhas session id hid) (hhas other id hother)

/-- What keeps to the set of one session keeps the variables of all others. -/
theorem Within.varsOf (h : s.Within id s') (hs : s.Apart) (hid : s.Has session id)
    (hne : other ≠ session) : s'.varsOf other = s.varsOf other := by
  rw [Stores.varsOf, Stores.varsOf, h.sessions]
  cases hl : s.sessions.lookup other with
  | none => rfl
  | some id' =>
    refine h.others id' ?_
    rintro rfl
    exact hne (hs.separate other session id' hl hid)

theorem Has.of_obtain (h : (s.obtain session).2.Has other id) :
    s.Has other id ∨ other = session ∧ id = s.tables.size := by
  unfold Stores.obtain at h
  split at h
  · exact .inl h
  · by_cases heq : other = session
    · subst heq
      right
      simpa [Has, eq_comm] using h
    · left
      simpa [Has, List.lookup_cons, beq_eq_false_iff_ne.mpr heq] using h

theorem Apart.obtain (h : s.Apart) (session : SessionId) : (s.obtain session).2.Apart := by
  cases hl : s.sessions.lookup session with
  | some id =>
    rw [show s.obtain session = (id, s) from Has.obtain hl]
    exact h
  | none =>
    have hsize : (s.obtain session).2.tables.size = s.tables.size + 1 := by
      simp [Stores.obtain, hl]
    constructor
    · intro other id hid
      rw [hsize]
      rcases hid.of_obtain with hid | ⟨-, rfl⟩
      · exact Nat.lt_succ_of_lt (h.made other id hid)
      · exact Nat.lt_succ_self _
    · intro a b id ha hb
      -- the set that was made has a number that no other session has
      have hnew : ∀ other, ¬ s.Has other s.tables.size :=
        fun other hother => Nat.lt_irrefl _ (h.made other _ hother)
      rcases ha.of_obtain with ha' | ⟨rfl, rfl⟩
      · rcases hb.of_obtain with hb' | ⟨-, rfl⟩
        · exact h.separate a b id ha' hb'
        · exact absurd ha' (hnew a)
      · rcases hb.of_obtain with hb' | ⟨rfl, -⟩
        · exact absurd hb' (hnew b)
        · rfl

/-- A session that is forgotten takes no variables from others. -/
theorem Apart.forget (h : s.Apart) (session : SessionId) : (s.forget session).2.Apart := by
  have hhas (other : SessionId) (id : StoreId) :
      (s.forget session).2.Has other id → s.Has other id := by
    intro hid
    have hne : other ≠ session := by
      rintro rfl
      have hmem := Workspace.mem_of_lookup hid
      simp [Stores.forget] at hmem
    rwa [Has, Stores.forget, lookup_filter_ne _ hne] at hid
  exact ⟨fun other id hid => h.made other id (hhas other id hid),
    fun a b id ha hb => h.separate a b id (hhas a id ha) (hhas b id hb)⟩

/-- Making a set for a session changes the variables of none. -/
theorem varsOf_obtain (s : Stores) (session other : SessionId) :
    (s.obtain session).2.varsOf other = s.varsOf other := by
  cases hl : s.sessions.lookup other with
  | some id =>
    have hid : s.Has other id := hl
    rw [hid.varsOf, (s.extends_obtain session other id hid).varsOf, table_obtain]
  | none =>
    rw [show s.varsOf other = {} by simp [varsOf, hl]]
    cases hl' : (s.obtain session).2.sessions.lookup other with
    | none => simp [varsOf, hl']
    | some id =>
      have hid : (s.obtain session).2.Has other id := hl'
      rcases hid.of_obtain with hold | ⟨rfl, rfl⟩
      · rw [Has, hl] at hold
        cases hold
      · rw [hid.varsOf, table_obtain]
        simp [table]

end Stores

end TierScript
