import TierScript.Proofs.Run.Rules

/-!
# The control state of a context

Everything in a context but its variables is its control state: the session and the variables it is
bound to, the loop marks, the functions and the offers of the running blocks, the early-exit mark
and the depth. Here are the operations of a machine that leave it alone.
-/

namespace TierScript

/-- A context without its variables. -/
def Context.control (c : Context) : Context := { c with locals := {} }

namespace Context

variable {c c' : Context}

theorem control_eq_iff : c'.control = c.control ↔
    c'.session = c.session ∧ c'.store = c.store ∧ c'.loops = c.loops ∧ c'.lexical = c.lexical ∧
      c'.offers = c.offers ∧ c'.earlyExit = c.earlyExit ∧ c'.depth = c.depth := by
  simp [control]

theorem write_control (c : Context) (stores : Stores) (v : Var) (value : Value) :
    (c.write stores v value).1.control = c.control := by
  unfold write
  cases v.tier <;> rfl

end Context

namespace Machine

/-! ## Operations on the world -/

@[simp] theorem modifyCtx_ctx (m : Machine) (f : Context → Context) :
    (m.modifyCtx f).ctx = f m.ctx := rfl

@[simp] theorem modifyCtx_world (m : Machine) (f : Context → Context) :
    (m.modifyCtx f).world = m.world := rfl

/-! ## Resolving calls -/

/-- The second machine differs from the first one only in what is remembered of calls and in the
    log. -/
def Recalls (m m' : Machine) : Prop :=
  ∃ calls moduleCalls log, m' = { m with world := { m.world with calls, moduleCalls, log } }

theorem Recalls.refl (m : Machine) : m.Recalls m := ⟨_, _, _, rfl⟩

theorem Recalls.trans {m₁ m₂ m₃ : Machine} (h : m₁.Recalls m₂) (h' : m₂.Recalls m₃) :
    m₁.Recalls m₃ := by
  obtain ⟨_, _, _, rfl⟩ := h
  obtain ⟨_, _, _, rfl⟩ := h'
  exact ⟨_, _, _, rfl⟩

theorem Recalls.ctx {m m' : Machine} (h : m.Recalls m') : m'.ctx = m.ctx := by
  obtain ⟨_, _, _, rfl⟩ := h
  rfl

theorem Recalls.pool {m m' : Machine} (h : m.Recalls m') : m'.world.pool = m.world.pool := by
  obtain ⟨_, _, _, rfl⟩ := h
  rfl

section Resolution

variable {env : Env} {program : ProgramId} {site : CallSite} {c : Call} {m m' : Machine}

theorem resolve_recalls {r : Except EvalError Callable} (h : m.resolve env program c = (r, m')) :
    m.Recalls m' := by
  unfold resolve at h
  dsimp only at h
  split at h
  · cases h; exact .refl m
  · split at h
    · cases h; exact ⟨_, _, _, rfl⟩
    · cases h; exact .refl m

theorem resolveModule_recalls {module : String} {id : Option Nat}
    (h : m.resolveModule env site module = (id, m')) : m.Recalls m' := by
  have fresh (h : resolveModule.fresh env site module m = (id, m')) : m.Recalls m' := by
    unfold resolveModule.fresh at h
    split at h <;> cases h <;> exact ⟨_, _, _, rfl⟩
  unfold resolveModule at h
  split at h
  · split at h
    · cases h; exact .refl m
    · exact fresh h
  · exact fresh h

theorem resolveIn_recalls {module : Module} {r : Option Callable}
    (h : m.resolveIn env site module = (r, m')) : m.Recalls m' := by
  unfold resolveIn at h
  dsimp only at h
  split at h
  · cases h; exact .refl m
  · split at h <;> cases h <;> exact ⟨_, _, _, rfl⟩

theorem resolveModuleCall_recalls {module : String} {r : Except EvalError Callable}
    (h : m.resolveModuleCall env program module c = (r, m')) : m.Recalls m' := by
  unfold resolveModuleCall at h
  dsimp only at h
  split at h
  · next hmod => cases h; exact resolveModule_recalls hmod
  · next hmod =>
    split at h
    · cases h; exact resolveModule_recalls hmod
    · split at h
      · next hin => cases h; exact (resolveModule_recalls hmod).trans (resolveIn_recalls hin)
      · next hin => cases h; exact (resolveModule_recalls hmod).trans (resolveIn_recalls hin)

theorem resolve_ctx {r : Except EvalError Callable} (h : m.resolve env program c = (r, m')) :
    m'.ctx = m.ctx := (resolve_recalls h).ctx

theorem resolveModuleCall_ctx {module : String} {r : Except EvalError Callable}
    (h : m.resolveModuleCall env program module c = (r, m')) : m'.ctx = m.ctx :=
  (resolveModuleCall_recalls h).ctx

end Resolution

/-! ## Entering and leaving blocks -/

section Blocks

variable (m : Machine) (b : Linked Block)

@[simp] theorem enterBlock_session : (m.enterBlock b).ctx.session = m.ctx.session := by
  simp only [enterBlock, modifyCtx, Context.pushFunctions]
  split <;> rfl

@[simp] theorem enterBlock_store : (m.enterBlock b).ctx.store = m.ctx.store := by
  simp only [enterBlock, modifyCtx, Context.pushFunctions]
  split <;> rfl

@[simp] theorem enterBlock_locals : (m.enterBlock b).ctx.locals = m.ctx.locals := by
  simp only [enterBlock, modifyCtx, Context.pushFunctions]
  split <;> rfl

@[simp] theorem enterBlock_loops : (m.enterBlock b).ctx.loops = m.ctx.loops := by
  simp only [enterBlock, modifyCtx, Context.pushFunctions]
  split <;> rfl

@[simp] theorem enterBlock_earlyExit : (m.enterBlock b).ctx.earlyExit = m.ctx.earlyExit := by
  simp only [enterBlock, modifyCtx, Context.pushFunctions]
  split <;> rfl

@[simp] theorem enterBlock_depth : (m.enterBlock b).ctx.depth = m.ctx.depth := by
  simp only [enterBlock, modifyCtx, Context.pushFunctions]
  split <;> rfl

@[simp] theorem leaveBlock_session : (m.leaveBlock b).ctx.session = m.ctx.session := by
  simp only [leaveBlock, modifyCtx, Context.popFunctions]
  split <;> rfl

@[simp] theorem leaveBlock_store : (m.leaveBlock b).ctx.store = m.ctx.store := by
  simp only [leaveBlock, modifyCtx, Context.popFunctions]
  split <;> rfl

@[simp] theorem leaveBlock_locals : (m.leaveBlock b).ctx.locals = m.ctx.locals := by
  simp only [leaveBlock, modifyCtx, Context.popFunctions]
  split <;> rfl

@[simp] theorem leaveBlock_loops : (m.leaveBlock b).ctx.loops = m.ctx.loops := by
  simp only [leaveBlock, modifyCtx, Context.popFunctions]
  split <;> rfl

@[simp] theorem leaveBlock_earlyExit : (m.leaveBlock b).ctx.earlyExit = m.ctx.earlyExit := by
  simp only [leaveBlock, modifyCtx, Context.popFunctions]
  split <;> rfl

@[simp] theorem leaveBlock_depth : (m.leaveBlock b).ctx.depth = m.ctx.depth := by
  simp only [leaveBlock, modifyCtx, Context.popFunctions]
  split <;> rfl

@[simp] theorem enterBlock_offers : (m.enterBlock b).ctx.offers = {} :: m.ctx.offers := by
  simp only [enterBlock, modifyCtx, Context.pushFunctions]
  split <;> rfl

@[simp] theorem leaveBlock_offers : (m.leaveBlock b).ctx.offers = m.ctx.offers.tail := by
  simp only [leaveBlock, modifyCtx, Context.popFunctions]
  split <;> rfl

@[simp] theorem enterBlock_lexical : (m.enterBlock b).ctx.lexical =
    if b.node.functions.isEmpty then m.ctx.lexical
    else ⟨b.program, b.node.functions⟩ :: m.ctx.lexical := by
  simp only [enterBlock, modifyCtx, Context.pushFunctions]
  split <;> rfl

@[simp] theorem leaveBlock_lexical : (m.leaveBlock b).ctx.lexical =
    if b.node.functions.isEmpty then m.ctx.lexical else m.ctx.lexical.tail := by
  simp only [leaveBlock, modifyCtx, Context.popFunctions]
  split <;> rfl

end Blocks

/-! ## Operations on variables -/

@[simp] theorem write_control (m : Machine) (v : Var) (value : Value) :
    (m.write v value).ctx.control = m.ctx.control :=
  Context.write_control m.ctx m.world.stores v value

theorem assign_control {m m' : Machine} {target : Var} {value : Expr} {r : Except EvalError Unit}
    (h : m.assign target value = (r, m')) : m'.ctx.control = m.ctx.control := by
  unfold assign at h
  split at h
  · cases h; exact write_control m target _
  · cases h; rfl

theorem bindArguments_control (lookup : Var → Value) (bindings : List (String × Expr))
    (callee : Context) :
    (bindArguments lookup callee bindings).2.control = callee.control := by
  induction bindings generalizing callee with
  | nil => rfl
  | cons binding rest ih =>
    rw [bindArguments]
    split
    · exact ih _
    · rfl

theorem copyBack_control (f : FnDef) (args : List Expr) (callee : Context) :
    ∀ (positions : List Nat) (m : Machine),
      (copyBack f args callee m positions).ctx.control = m.ctx.control := by
  intro positions
  induction positions with
  | nil => intro m; rfl
  | cons position rest ih =>
    intro m
    rw [copyBack]
    split
    · rw [ih, write_control]
    · exact ih m

theorem leaveCall_control (m : Machine) (caller : Context) (f : FnDef) (args : List Expr) :
    (m.leaveCall caller f args).ctx.control = caller.control :=
  copyBack_control f args m.ctx f.outs ⟨caller, m.world⟩

end Machine

end TierScript
