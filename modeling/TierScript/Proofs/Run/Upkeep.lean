import TierScript.Proofs.Run.Control

/-!
# Properties of the world that every run keeps

Everything that a run does to the world, it does by a few operations: it writes variables, takes
contexts from the pool and gives them back, remembers what calls were resolved to, prints, notes,
and fills the drawer of the host. A property that all these operations keep is an `Upkeep`, and
holds after every run that starts with it (`Ends.upkeep`).
-/

namespace TierScript

theorem Machine.breakOut_world {m m' : Machine} {span : Span} {r : Except EvalError Unit}
    (h : m.breakOut span = (r, m')) : m'.world = m.world := by
  unfold breakOut at h
  split at h <;> cases h <;> rfl

/-- A property of the world that is kept by all that a run with the given registry does. -/
structure Upkeep (registry : Registry) (p : World → Prop) : Prop where
  note : ∀ w e, p w → p (w.note e)
  print : ∀ w line, p w → p (w.print line)
  keep : ∀ w b, p w → p { w with drawer := b }
  store : ∀ w stores, p w → p { w with stores }
  obtain : ∀ w session, p w → p (w.obtain session).2
  release : ∀ w c, p w → p (w.release c)
  resolve : ∀ {env : Env} {m m' : Machine} {program c r}, env.registry = registry →
    m.resolve env program c = (r, m') → p m.world → p m'.world
  resolveModuleCall : ∀ {env : Env} {m m' : Machine} {program module c r},
    env.registry = registry → m.resolveModuleCall env program module c = (r, m') →
    p m.world → p m'.world

namespace Upkeep

variable {registry : Registry} {p : World → Prop}

section Operations

variable (h : Upkeep registry p) {m m' : Machine}
include h

theorem write (v : Var) (value : Value) (hm : p m.world) : p (m.write v value).world :=
  h.store _ _ hm

theorem assign {target : Var} {value : Expr} {r : Except EvalError Unit}
    (ha : m.assign target value = (r, m')) (hm : p m.world) : p m'.world := by
  unfold Machine.assign at ha
  split at ha
  · cases ha; exact h.write _ _ hm
  · cases ha; exact hm

theorem enterCall {f : FnDef} {args : List Expr} {r : Except ArithError Unit}
    (he : m.enterCall f args = (r, m')) (hm : p m.world) : p m'.world := by
  cases he
  exact h.obtain _ _ hm

theorem abandonCall (caller : Context) (hm : p m.world) : p (m.abandonCall caller).world :=
  h.release _ _ hm

theorem copyBack (f : FnDef) (args : List Expr) (callee : Context) (outs : List Nat)
    (hm : p m.world) : p (Machine.copyBack f args callee m outs).world := by
  induction outs generalizing m with
  | nil => exact hm
  | cons position rest ih =>
    unfold Machine.copyBack
    split
    · exact ih (h.write _ _ hm)
    · exact ih hm

theorem leaveCall (caller : Context) (f : FnDef) (args : List Expr) (hm : p m.world) :
    p (m.leaveCall caller f args).world := by
  have hback : p (Machine.copyBack f args m.ctx ⟨caller, m.world⟩ f.outs).world :=
    h.copyBack f args m.ctx f.outs hm
  exact h.release _ _ hback

theorem answer {a a₁ : Action} (ha : a.answer? m = some (a₁, m')) (hm : p m.world) :
    p m'.world := by
  cases a with
  | done | fail | run | runApart | spawn => cases ha
  | write v value => cases ha; exact h.write v value hm
  | print => cases ha; exact h.print _ _ hm
  | keep => cases ha; exact h.keep _ _ hm
  | note => cases ha; exact h.note _ _ hm
  | evaluate | look | claim | enterLoop | exitLoop | breakLoop | setExit | clearExit | kept =>
    cases ha
    exact hm

end Operations

end Upkeep

open Eval in
theorem Eval.Ends.upkeep {env : Env} {j : Job} {m m' : Machine} {r : Except EvalError Unit}
    {p : World → Prop} (he : Ends env j m r m') (h : Upkeep env.registry p) (hm : p m.world) :
    p m'.world := by
  induction he with
  | block _ ih | stmtsError _ _ ih | stmtBlock _ ih | ifTrue _ _ ih | ifFalse _ _ ih
  | stmtWhile _ ih | stmtFor _ _ _ ih | whileBodyError _ _ _ ih | forRange _ _ _ ih
  | forArray _ _ ih | timesError _ _ ih | invokeScript _ ih | invokeNative _ ih => exact ih h hm
  | stmtsNil | stmtsStop | ifError | ifNone | forDestError | forSrcError | endCode | whileStop
  | whileError | whileFalse | timesStop | forEachNil | forEachStop | tooDeep | done | fail =>
    exact hm
  | stmtsNext _ _ _ ih₁ ih₂ | whileNext _ _ _ _ ih₁ ih₂ | timesNext _ _ _ ih₁ ih₂
  | run _ _ ih₁ ih₂ | runApart _ _ ih₁ ih₂ => exact ih₂ h (ih₁ h hm)
  | assign ha => exact h.assign ha hm
  | breakLoop hb => rw [Machine.breakOut_world hb]; exact hm
  | callError hr => exact h.resolve rfl hr hm
  | call hr _ ih => exact ih h (h.resolve rfl hr hm)
  | moduleCallError hr => exact h.resolveModuleCall rfl hr hm
  | moduleCall hr _ ih => exact ih h (h.resolveModuleCall rfl hr hm)
  | forSkip => exact h.note _ _ hm
  | forEachError _ _ ih => exact ih h (h.write _ _ hm)
  | forEachNext _ _ _ ih₁ ih₂ => exact ih₂ h (ih₁ h (h.write _ _ hm))
  | badArgument _ he => exact h.abandonCall _ (h.enterCall he hm)
  | bodyError _ he _ ih => exact h.abandonCall _ (ih h (h.enterCall he hm))
  | returned _ he _ ih => exact h.leaveCall _ _ _ (ih h (h.enterCall he hm))
  | request ha _ ih => exact ih h (h.answer ha hm)
  | spawnOk _ _ ih₁ ih₂ => exact ih₂ h (ih₁ h (h.note _ _ hm))
  | spawnError _ _ ih₁ ih₂ => exact ih₂ h (h.note _ _ (ih₁ h (h.note _ _ hm)))

/-! ## The idle contexts of the pool -/

/-- What holds of every context that was cleared holds of all idle contexts at any time: contexts
    are cleared when they are given back. -/
theorem upkeep_idle {q : Context → Prop} (hq : ∀ c : Context, q c.reset) (registry : Registry) :
    Upkeep registry fun w => ∀ c ∈ w.pool.idle, q c where
  note _ _ h := h
  print _ _ h := h
  keep _ _ h := h
  store _ _ h := h
  obtain w session h := by
    unfold World.obtain Pool.obtain
    cases hidle : w.pool.idle with
    | nil => simp [hidle]
    | cons top rest => exact fun c hc => h c (by rw [hidle]; exact List.mem_cons_of_mem _ hc)
  release w c h := by
    unfold World.release Pool.release
    dsimp only
    split
    · intro c' hc'
      rcases List.mem_cons.mp hc' with rfl | hc'
      · exact hq c
      · exact h c' hc'
    · exact h
  resolve _ hr h := by
    rw [(Machine.resolve_recalls hr).pool]
    exact h
  resolveModuleCall _ hr h := by
    rw [(Machine.resolveModuleCall_recalls hr).pool]
    exact h

/-- All idle contexts are in no loop and not stopped. -/
def Pool.Blank (p : Pool) : Prop := ∀ c ∈ p.idle, c.loops = [] ∧ c.earlyExit = false

/-- The pool of the world is blank. -/
def World.Blank (w : World) : Prop := w.pool.Blank

theorem upkeep_blank (registry : Registry) : Upkeep registry World.Blank :=
  upkeep_idle (fun _ => ⟨rfl, rfl⟩) registry

namespace World.Blank

variable {w : World}

/-- A context from the pool is in no loop and not stopped. -/
theorem fresh (h : w.Blank) (session : SessionId) :
    (w.obtain session).1.loops = [] ∧ (w.obtain session).1.earlyExit = false := by
  unfold World.obtain Pool.obtain
  cases hidle : w.pool.idle with
  | nil => exact ⟨rfl, rfl⟩
  | cons c rest =>
    have hc := h c (by rw [hidle]; exact List.mem_cons_self)
    simp only [Context.rebind]
    split <;> exact hc

theorem obtain (h : w.Blank) (session : SessionId) : (w.obtain session).2.Blank :=
  (upkeep_blank default).obtain w session h

theorem release (h : w.Blank) (c : Context) : (w.release c).Blank :=
  (upkeep_blank default).release w c h

end World.Blank

end TierScript
