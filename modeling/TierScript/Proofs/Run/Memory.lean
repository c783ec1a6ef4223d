import TierScript.Proofs.Run.Underway

/-!
# What calls remember during a run

Only the resolution of a call changes what calls remember. So a property of jobs under way that
depends on what calls remember has to be checked in two places: that the parts of a job have it, and
that a call that is resolved learns nothing wrong.

* `Carries p q`: jobs under way have the property `p`, as long as what calls remember has the
  property `q`.
* `Carries.ends`, `Carries.enters`: then `q` holds after every run, and `p` of all parts of a job.
-/

namespace TierScript

namespace Machine

variable {m m' : Machine}

theorem copyBack_calls (f : FnDef) (args : List Expr) (callee : Context) (outs : List Nat)
    (m : Machine) : (copyBack f args callee m outs).world.calls = m.world.calls := by
  induction outs generalizing m with
  | nil => rfl
  | cons position rest ih =>
    rw [copyBack]
    split
    · exact ih _
    · exact ih m

theorem assign_calls {target : Var} {value : Expr} {r : Except EvalError Unit}
    (h : m.assign target value = (r, m')) : m'.world.calls = m.world.calls := by
  unfold assign at h
  split at h <;> cases h <;> rfl

theorem enterCall_calls {f : FnDef} {args : List Expr} {r : Except ArithError Unit}
    (h : m.enterCall f args = (r, m')) : m'.world.calls = m.world.calls := by
  cases h
  rfl

theorem answer_calls {a a₁ : Action} (h : a.answer? m = some (a₁, m')) :
    m'.world.calls = m.world.calls := by
  cases a with
  | done | fail | run | runApart | spawn => cases h
  | _ => cases h; rfl

end Machine

namespace Eval

open Machine

/-- Jobs under way have the property `p`, and what calls remember has the property `q`: parts of a
    job inherit `p` if `q` still holds, and `q` still holds when a call was resolved. -/
structure Carries (p : Env → Job → Machine → Prop) (q : World → Prop) : Prop where
  now : ∀ {env j m}, p env j m → q m.world
  part : ∀ {env j m env' j' m'}, p env j m → Enters env j m env' j' m' → q m'.world → p env' j' m'
  quiet : ∀ {w w' : World}, q w → w'.calls = w.calls → q w'
  resolve : ∀ {env : Env} {m m' : Machine} {program c r}, p env (.stmt program (.call c)) m →
    m.resolve env program c = (r, m') → q m'.world
  resolveModuleCall : ∀ {env : Env} {m m' : Machine} {program module c r},
    p env (.stmt program (.moduleCall module c)) m →
    m.resolveModuleCall env program module c = (r, m') → q m'.world

namespace Carries

variable {p : Env → Job → Machine → Prop} {q : World → Prop} {env env' : Env} {j j' : Job}
  {m m' : Machine}

/-- A part that starts with what calls remember now. -/
theorem start (h : Carries p q) (hp : p env j m) (he : Enters env j m env' j' m')
    (hc : m'.world.calls = m.world.calls) : p env' j' m' := h.part hp he (h.quiet (h.now hp) hc)

theorem ends {r : Except EvalError Unit} (h : Carries p q) (he : Ends env j m r m')
    (hp : p env j m) : q m'.world := by
  induction he with
  | stmtsNil | stmtsStop | ifError | ifNone | forDestError | forSrcError | whileStop | whileError
  | whileFalse | timesStop | forEachNil | forEachStop | tooDeep | done | fail => exact h.now hp
  | endCode | forSkip => exact h.quiet (h.now hp) rfl
  | block _ ih => exact h.quiet (ih (h.start hp .block rfl)) rfl
  | stmtsError ht _ ih => exact ih (h.start hp (.first ht) rfl)
  | stmtsNext ht h₁ _ ih₁ ih₂ =>
    exact ih₂ (h.part hp (.rest ht h₁) (ih₁ (h.start hp (.first ht) rfl)))
  | stmtBlock _ ih => exact ih (h.start hp .stmtBlock rfl)
  | assign ha => exact h.quiet (h.now hp) (assign_calls ha)
  | ifTrue hc _ ih => exact ih (h.start hp (.ifTrue hc) rfl)
  | ifFalse hc _ ih => exact ih (h.start hp (.ifFalse hc) rfl)
  | stmtWhile _ ih => exact h.quiet (ih (h.start hp .stmtWhile rfl)) rfl
  | stmtFor hd hs _ ih => exact h.quiet (ih (h.start hp (.stmtFor hd hs) rfl)) rfl
  | breakLoop hb => exact h.quiet (h.now hp) (congrArg World.calls (breakOut_world hb))
  | callError hr => exact h.resolve hp hr
  | call hr _ ih => exact ih (h.part hp (.call hr) (h.resolve hp hr))
  | moduleCallError hr => exact h.resolveModuleCall hp hr
  | moduleCall hr _ ih => exact ih (h.part hp (.moduleCall hr) (h.resolveModuleCall hp hr))
  | whileBodyError ht hc _ ih => exact ih (h.start hp (.whileBody ht hc) rfl)
  | whileNext ht hc h₁ _ ih₁ ih₂ =>
    exact ih₂ (h.part hp (.whileNext ht hc h₁) (ih₁ (h.start hp (.whileBody ht hc) rfl)))
  | forRange hd hs _ ih => exact ih (h.start hp (.forRange hd hs) rfl)
  | forArray hv _ ih => exact ih (h.start hp (.forArray hv) rfl)
  | timesError ht _ ih => exact ih (h.start hp (.timesBody ht) rfl)
  | timesNext ht h₁ _ ih₁ ih₂ =>
    exact ih₂ (h.part hp (.timesNext ht h₁) (ih₁ (h.start hp (.timesBody ht) rfl)))
  | forEachError ht _ ih => exact ih (h.start hp (.forEachBody ht) rfl)
  | forEachNext ht h₁ _ ih₁ ih₂ =>
    exact ih₂ (h.part hp (.forEachNext ht h₁) (ih₁ (h.start hp (.forEachBody ht) rfl)))
  | invokeScript _ ih => exact ih (h.start hp .invokeScript rfl)
  | invokeNative _ ih => exact ih (h.start hp .invokeNative rfl)
  | badArgument _ he =>
    have hcalls := enterCall_calls he
    exact h.quiet (h.now hp) hcalls
  | bodyError hdeep he _ ih =>
    have hbody := ih (h.start hp (.body hdeep he) (enterCall_calls he))
    exact h.quiet hbody rfl
  | @returned _ f args m _ m₁ hdeep he _ ih =>
    have hbody := ih (h.start hp (.body hdeep he) (enterCall_calls he))
    exact h.quiet hbody (copyBack_calls f.node args m₁.ctx f.node.outs ⟨m.ctx, m₁.world⟩)
  | request ha _ ih => exact ih (h.start hp (.request ha) (answer_calls ha))
  | run h₁ _ ih₁ ih₂ => exact ih₂ (h.part hp (.afterRun h₁) (ih₁ (h.start hp .run rfl)))
  | runApart h₁ _ ih₁ ih₂ =>
    exact ih₂ (h.part hp (.afterRunApart h₁) (ih₁ (h.start hp .runApart rfl)))
  | spawnOk h₁ _ ih₁ ih₂ => exact ih₂ (h.part hp (.afterSpawn h₁) (ih₁ (h.start hp .spawn rfl)))
  | spawnError h₁ _ ih₁ ih₂ =>
    have hapart := ih₁ (h.start hp .spawn rfl)
    exact ih₂ (h.part hp (.afterFailedSpawn h₁) (h.quiet hapart rfl))

theorem enters (h : Carries p q) (hp : p env j m) (he : Enters env j m env' j' m') :
    p env' j' m' := by
  refine h.part hp he ?_
  cases he with
  | block | first | stmtBlock | ifTrue | ifFalse | stmtWhile | stmtFor | whileBody | forRange
  | forArray | timesBody | invokeScript | invokeNative | run | runApart | forEachBody | spawn =>
    exact h.quiet (h.now hp) rfl
  | rest ht he => exact h.ends he (h.start hp (.first ht) rfl)
  | whileNext ht hc he => exact h.ends he (h.start hp (.whileBody ht hc) rfl)
  | timesNext ht he => exact h.ends he (h.start hp (.timesBody ht) rfl)
  | forEachNext ht he => exact h.ends he (h.start hp (.forEachBody ht) rfl)
  | call hr => exact h.resolve hp hr
  | moduleCall hr => exact h.resolveModuleCall hp hr
  | body _ he => exact h.quiet (h.now hp) (enterCall_calls he)
  | request ha => exact h.quiet (h.now hp) (answer_calls ha)
  | afterRun he => exact h.ends he (h.start hp .run rfl)
  | afterRunApart he =>
    have hapart := h.ends he (h.start hp .runApart rfl)
    exact hapart
  | afterSpawn he | afterFailedSpawn he =>
    have hapart := h.ends he (h.start hp .spawn rfl)
    exact h.quiet hapart rfl

/-- The property holds at every moment of a run that starts with it. -/
theorem reaches (h : Carries p q) (hr : Reaches env j m env' j' m') (hp : p env j m) :
    p env' j' m' := by
  induction hr with
  | here => exact hp
  | part he _ ih => exact ih (h.enters hp he)

end Carries

end Eval

end TierScript
