import Mathlib.Logic.Relation
import TierScript.Proofs.Host.Calling

/-!
# Runs change variables by writing them

Assignments, arguments, parameters that are copied back, loop variables and host functions: whatever
a run does to variables, it does by giving one of them a value. Contexts that are made or cleared
start without any, or with a copy.

* `Vars.Wrote`, `Stores.Wrote`: the second variables come from the first ones by writing them.
* `Eval.Ends.wrote`, `Eval.Enters.wrote`: what a run does to the variables of its context.
  `Stores.tracks_wrote`: and to those that contexts share.
* `Eval.During`: the machines at all moments of a run. `Machine.Written.during`: all of their
  variables were written, if that is so at the start.
-/

namespace TierScript

open Relation

/-! ## Written variables -/

namespace Vars

/-- The two ways to change variables: one of them is given a value, or all are removed. -/
inductive Edit (vs : Vars) : Vars → Prop where
  | set (name : String) (value : Value) : Edit vs (vs.set name value)
  | clear : Edit vs {}

/-- The second variables come from the first ones by edits. -/
def Wrote : Vars → Vars → Prop := ReflTransGen Edit

variable {vs vs' vs'' : Vars}

theorem Wrote.refl (vs : Vars) : vs.Wrote vs := ReflTransGen.refl

theorem Wrote.trans (h : vs.Wrote vs') (h' : vs'.Wrote vs'') : vs.Wrote vs'' :=
  ReflTransGen.trans h h'

theorem Wrote.of_eq (h : vs' = vs) : vs.Wrote vs' := h ▸ .refl vs

theorem wrote_set (vs : Vars) (name : String) (value : Value) : vs.Wrote (vs.set name value) :=
  ReflTransGen.single (.set name value)

theorem wrote_clear (vs : Vars) : vs.Wrote {} := ReflTransGen.single .clear

/-- No variable is there with the value null. -/
def NullFree (vs : Vars) : Prop := ∀ e ∈ vs.entries, e.2 ≠ .null

theorem NullFree.edit (h : vs.NullFree) (he : vs.Edit vs') : vs'.NullFree := by
  cases he with
  | clear => nofun
  | set name value =>
    have herase : (vs.erase name).NullFree := fun e he => h e (List.mem_filter.mp he).1
    unfold Vars.set
    split
    · exact herase
    · next hnull =>
      refine List.forall_mem_cons.mpr ⟨?_, herase⟩
      rintro rfl
      exact hnull rfl

theorem Wrote.nullFree (h : Wrote {} vs) : vs.NullFree := by
  induction h with
  | refl => nofun
  | tail _ he ih => exact ih.edit he

/-- Without nulls, the variables that are there are those that are not read as null. -/
theorem NullFree.contains_iff (h : vs.NullFree) (name : String) :
    vs.contains name = true ↔ vs.get name ≠ .null := by
  unfold Vars.contains Vars.get
  rw [List.any_eq_true]
  cases hfound : vs.entries.lookup name with
  | some value =>
    have hmem := Workspace.mem_of_lookup hfound
    have hvalue : value ≠ .null := h _ hmem
    exact iff_of_true ⟨_, hmem, beq_self_eq_true name⟩ hvalue
  | none =>
    refine iff_of_false ?_ fun hget => hget rfl
    rintro ⟨e, he, heq⟩
    have hne := List.lookup_eq_none_iff.mp hfound e he
    exact bne_iff_ne.mp hne (eq_of_beq heq).symm

end Vars

namespace Stores

/-- The second stores come from the first ones by writing variables and making new sets. -/
structure Wrote (s s' : Stores) : Prop where
  global : s.global.Wrote s'.global
  tables : ∀ id, (s.table id).Wrote (s'.table id)

variable {s s' : Stores}

theorem Wrote.refl (s : Stores) : s.Wrote s := ⟨.refl _, fun _ => .refl _⟩

theorem Wrote.trans {s₁ s₂ s₃ : Stores} (h : s₁.Wrote s₂) (h' : s₂.Wrote s₃) : s₁.Wrote s₃ :=
  ⟨h.global.trans h'.global, fun id => (h.tables id).trans (h'.tables id)⟩

theorem wrote_update (s : Stores) (id : StoreId) {f : Vars → Vars}
    (hf : ∀ vs : Vars, vs.Wrote (f vs)) : s.Wrote (s.update id f) where
  global := .refl _
  tables other := by
    unfold Stores.update Stores.table
    rw [Array.getElem?_modify]
    split
    · cases s.tables[other]? with
      | none => exact .refl _
      | some vs => exact hf vs
    · exact .refl _

theorem wrote_obtain (s : Stores) (session : SessionId) : s.Wrote (s.obtain session).2 where
  global := by
    unfold Stores.obtain
    split <;> exact .refl _
  tables id := .of_eq (s.table_obtain session id)

/-- A set that was made is the table of its number. -/
theorem Wrote.nullFree (h : Wrote {} s) : s.global.NullFree ∧ ∀ vs ∈ s.tables, vs.NullFree := by
  refine ⟨h.global.nullFree, fun vs hvs => ?_⟩
  obtain ⟨id, hid, rfl⟩ := Array.mem_iff_getElem.mp hvs
  have htable := (h.tables id).nullFree
  rwa [Stores.table, Array.getElem?_eq_getElem hid] at htable

end Stores

/-! ## What runs do to variables -/

namespace Context

theorem write_wrote_locals (c : Context) (s : Stores) (v : Var) (value : Value) :
    c.locals.Wrote (c.write s v value).1.locals := by
  unfold Context.write
  cases v.tier with
  | loc => exact Vars.wrote_set _ _ _
  | session | global => exact .refl _

theorem write_wrote_stores (c : Context) (s : Stores) (v : Var) (value : Value) :
    s.Wrote (c.write s v value).2 := by
  unfold Context.write
  cases v.tier with
  | loc => exact .refl _
  | session => exact s.wrote_update c.store fun vs => vs.wrote_set v.name value
  | global => exact ⟨Vars.wrote_set _ _ _, fun _ => .refl _⟩

theorem offer_locals (c : Context) (block : Option (Linked Block)) :
    (c.offer block).locals = c.locals := by
  unfold offer
  split <;> rfl

theorem claim_locals (c : Context) : c.claim.2.locals = c.locals := by
  unfold claim
  split
  · rfl
  · split <;> rfl

theorem breakLoop_locals (c : Context) : c.breakLoop.2.locals = c.locals := by
  unfold breakLoop
  split <;> rfl

end Context

open Context

namespace Machine

variable {m m' : Machine}

theorem wrote_write (m : Machine) (v : Var) (value : Value) :
    m.ctx.locals.Wrote (m.write v value).ctx.locals :=
  m.ctx.write_wrote_locals m.world.stores v value

theorem wrote_assign {target : Var} {value : Expr} {r : Except EvalError Unit}
    (h : m.assign target value = (r, m')) : m.ctx.locals.Wrote m'.ctx.locals := by
  unfold assign at h
  split at h <;> cases h
  · exact m.wrote_write target _
  · exact .refl _

theorem wrote_breakOut {span : Span} {r : Except EvalError Unit} (h : m.breakOut span = (r, m')) :
    m.ctx.locals.Wrote m'.ctx.locals := by
  have hlocals := m.ctx.breakLoop_locals
  unfold breakOut at h
  split at h
  · next heq =>
    cases h
    rw [heq] at hlocals
    exact .of_eq hlocals
  · cases h
    exact .refl _

theorem wrote_copyBack (f : FnDef) (args : List Expr) (callee : Context) (outs : List Nat)
    (m : Machine) : m.ctx.locals.Wrote (copyBack f args callee m outs).ctx.locals := by
  rw [copyBack_eq_writeAll]
  unfold writeAll
  induction results f args callee outs generalizing m with
  | nil => exact .refl _
  | cons e rest ih => exact (m.wrote_write e.1 e.2).trans (ih _)

theorem wrote_bindArguments (lookup : Var → Value) (bindings : List (String × Expr))
    (callee : Context) :
    callee.locals.Wrote (bindArguments lookup callee bindings).2.locals := by
  induction bindings generalizing callee with
  | nil => exact .refl _
  | cons binding rest ih =>
    rw [bindArguments]
    split
    · next value _ =>
      have hrest := ih (callee.setLocal binding.1 value)
      exact (callee.locals.wrote_set binding.1 value).trans hrest
    · exact .refl _

theorem wrote_answer {a a₁ : Action} (h : a.answer? m = some (a₁, m')) :
    m.ctx.locals.Wrote m'.ctx.locals := by
  cases a with
  | done | fail | run | runApart | spawn => cases h
  | write v value => cases h; exact m.wrote_write v value
  | claim => cases h; exact .of_eq (claim_locals _)
  | breakLoop => cases h; exact .of_eq (breakLoop_locals _)
  | evaluate | look | enterLoop | exitLoop | setExit | clearExit | print | keep | kept | note =>
    cases h
    exact .refl _

/-- A call starts on a context from the pool, and writes the arguments there. -/
theorem wrote_enterCall {f : FnDef} {args : List Expr} {r : Except ArithError Unit}
    (hpool : m.world.pool.Cleared) (h : m.enterCall f args = (r, m')) :
    Vars.Wrote {} m'.ctx.locals := by
  have hbound : (m.world.obtain m.ctx.session).1.locals.Wrote (m.enterCall f args).2.ctx.locals :=
    wrote_bindArguments _ _ { (m.world.obtain m.ctx.session).1 with depth := m.ctx.depth + 1 }
  have hempty := congrArg Context.locals (obtain_cleared hpool m.ctx.session)
  rwa [hempty, h] at hbound

end Machine

namespace World

theorem wrote_obtain (w : World) (session : SessionId) :
    w.stores.Wrote (w.obtain session).2.stores := by
  rcases w.obtain_cases session with ⟨-, -, -, hstores⟩ | ⟨-, hstores⟩
  · rw [hstores]
    exact .refl _
  · rw [hstores]
    exact w.stores.wrote_obtain session

/-- Runs change the variables that contexts share by writing them and making new sets. -/
theorem tracks_wrote : Tracks fun w w' => w.stores.Wrote w'.stores where
  trans := .trans
  still _ hs := hs ▸ .refl _
  write m v value := m.ctx.write_wrote_stores m.world.stores v value
  obtain := wrote_obtain
  loan hw _ _ := (wrote_obtain _ _).trans hw

end World

namespace Eval

open Machine

variable {env env' : Env} {j j' : Job} {m m' : Machine}

theorem wrote_offering (program : ProgramId) (rest : List Stmt) (m : Machine) :
    m.ctx.locals.Wrote (offering program rest m).ctx.locals := .of_eq (offer_locals _ _)

/-- A run changes the variables of its context by writing them. -/
theorem Ends.wrote {r : Except EvalError Unit} (h : Ends env j m r m') :
    m.ctx.locals.Wrote m'.ctx.locals := by
  induction h with
  | block _ ih =>
    rw [enterBlock_locals] at ih
    rwa [leaveBlock_locals]
  | stmtsNil | stmtsStop | ifError | ifNone | forDestError | forSrcError | endCode | whileStop
  | whileError | whileFalse | forSkip | timesStop | forEachNil | forEachStop | tooDeep | done | fail
  | badArgument | bodyError => exact .refl _
  | stmtBlock _ ih | ifTrue _ _ ih | ifFalse _ _ ih | stmtWhile _ ih | stmtFor _ _ _ ih
  | whileBodyError _ _ _ ih | forRange _ _ _ ih | forArray _ _ ih | timesError _ _ ih
  | invokeScript _ ih | invokeNative _ ih | runApart _ _ _ ih | spawnOk _ _ _ ih
  | spawnError _ _ _ ih => exact ih
  | stmtsError _ _ ih => exact (wrote_offering ..).trans ih
  | stmtsNext _ _ _ ih₁ ih₂ => exact ((wrote_offering ..).trans ih₁).trans ih₂
  | whileNext _ _ _ _ ih₁ ih₂ | timesNext _ _ _ ih₁ ih₂ | run _ _ ih₁ ih₂ => exact ih₁.trans ih₂
  | assign ha => exact wrote_assign ha
  | breakLoop hb => exact wrote_breakOut hb
  | callError hr => exact .of_eq (by rw [resolve_ctx hr])
  | call hr _ ih => rwa [resolve_ctx hr] at ih
  | moduleCallError hr => exact .of_eq (by rw [resolveModuleCall_ctx hr])
  | moduleCall hr _ ih => rwa [resolveModuleCall_ctx hr] at ih
  | forEachError _ _ ih => exact (wrote_write _ _ _).trans ih
  | forEachNext _ _ _ ih₁ ih₂ => exact ((wrote_write _ _ _).trans ih₁).trans ih₂
  | @returned _ f args m _ m₁ =>
    exact wrote_copyBack f.node args m₁.ctx f.node.outs ⟨m.ctx, m₁.world⟩
  | request ha _ ih => exact (wrote_answer ha).trans ih

/-- A part of a run starts with variables that were written since the run has started, unless it is
    the body of a call. -/
theorem Enters.wrote (he : Enters env j m env' j' m') :
    m.ctx.locals.Wrote m'.ctx.locals ∨ ∃ f args r, m.enterCall f args = (r, m') := by
  cases he with
  | body _ he => exact .inr ⟨_, _, _, he⟩
  | stmtBlock | ifTrue | ifFalse | stmtWhile | stmtFor | whileBody | forRange | forArray | timesBody
  | invokeScript | invokeNative | run | runApart | afterRunApart | spawn | afterSpawn
  | afterFailedSpawn => exact .inl (.refl _)
  | block => exact .inl (.of_eq (enterBlock_locals ..))
  | first => exact .inl (wrote_offering ..)
  | rest _ he => exact .inl ((wrote_offering ..).trans he.wrote)
  | whileNext _ _ he | timesNext _ he | afterRun he => exact .inl he.wrote
  | call hr => exact .inl (.of_eq (by rw [resolve_ctx hr]))
  | moduleCall hr => exact .inl (.of_eq (by rw [resolveModuleCall_ctx hr]))
  | forEachBody => exact .inl (wrote_write m _ _)
  | forEachNext _ he => exact .inl ((wrote_write m _ _).trans he.wrote)
  | request ha => exact .inl (wrote_answer ha)

end Eval

/-! ## Moments of a run -/

namespace Eval

/-- The second machine is there at a moment of the run: where a part of it begins or ends, or where
    a call has bound its arguments, as far as they have values. -/
inductive During : Env → Job → Machine → Machine → Prop where
  | begins {env j m env' j' m'} : Reaches env j m env' j' m' → During env j m m'
  | ends {env j m env' j' m' r m''} :
      Reaches env j m env' j' m' → Ends env' j' m' r m'' → During env j m m''
  | binds {env j m env' f args m' r m''} :
      Reaches env j m env' (.script f args) m' → m'.ctx.depth + 1 ≤ env'.config.maxCallDepth →
      m'.enterCall f.node args = (r, m'') → During env j m m''

end Eval

/-- All variables that the machine has were written, and its idle contexts have none. -/
structure Machine.Written (m : Machine) : Prop where
  locals : Vars.Wrote {} m.ctx.locals
  stores : Stores.Wrote {} m.world.stores
  pool : m.world.pool.Cleared

namespace Machine

open Eval World

variable {env env' : Env} {j j' : Job} {m m' : Machine}

theorem Written.enterCall (h : m.Written) {f : FnDef} {args : List Expr}
    {r : Except ArithError Unit} (he : m.enterCall f args = (r, m')) : m'.Written where
  locals := wrote_enterCall h.pool he
  stores := h.stores.trans (tracks_wrote.enterCall he)
  pool := (upkeep_cleared default).enterCall he h.pool

theorem Written.enters (h : m.Written) (he : Enters env j m env' j' m') : m'.Written := by
  rcases he.wrote with hlocals | ⟨f, args, r, hcall⟩
  · have hpool := he.upkeep (upkeep_cleared env.registry) h.pool
    exact ⟨h.locals.trans hlocals, h.stores.trans (tracks_wrote.enters he), hpool⟩
  · exact h.enterCall hcall

theorem Written.reaches (h : m.Written) (hr : Reaches env j m env' j' m') : m'.Written := by
  induction hr with
  | here => exact h
  | part he _ ih => exact ih (h.enters he)

theorem Written.ends (h : m.Written) {r : Except EvalError Unit} (he : Ends env j m r m') :
    m'.Written where
  locals := h.locals.trans he.wrote
  stores := h.stores.trans (tracks_wrote.ends he)
  pool := he.upkeep (upkeep_cleared env.registry) h.pool

/-- From a machine whose variables were all written, a run comes only to such machines. -/
theorem Written.during (h : m.Written) (hd : During env j m m') : m'.Written := by
  cases hd with
  | begins hr => exact h.reaches hr
  | ends hr he => exact (h.reaches hr).ends he
  | binds hr _ he => exact (h.reaches hr).enterCall he

theorem Backed.during (h : m.Backed) (hw : m.world.Backed) (hd : During env j m m') :
    m'.Backed ∧ m'.world.Backed ∧ m.world.stores.tables.size ≤ m'.world.stores.tables.size := by
  cases hd with
  | begins hr =>
    have hadds := tracks_adds.reaches hr
    exact ⟨hr.backed h hw, hadds.backed hw, hadds.size⟩
  | ends hr he =>
    have hadds := tracks_adds.ends he
    have hall := (tracks_adds.reaches hr).trans hadds
    refine ⟨?_, hall.backed hw, hall.size⟩
    rw [Machine.Backed, he.restores.1.store]
    exact Nat.lt_of_lt_of_le (hr.backed h hw) hadds.size
  | @binds _ f args m₁ _ _ hr _ he =>
    have hall := (tracks_adds.reaches hr).trans (tracks_adds.enterCall he)
    refine ⟨?_, hall.backed hw, hall.size⟩
    have hstore := m₁.enterCall_store f.node args
    rw [he] at hstore
    have hworld := (tracks_adds.reaches hr).backed hw
    cases he
    rw [Machine.Backed, hstore]
    exact hworld.obtain_lt m₁.ctx.session

end Machine

end TierScript
