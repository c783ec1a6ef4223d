import TierScript.Proofs.Host.Nesting
import TierScript.Proofs.Run.Parts

/-!
# The depth of a context is exact

A context knows how many calls of script functions led to it, and a call is refused if that number
has reached the limit. Contexts are used again and again, so the number has to be right after any
mixture of calls, blocks run by host functions and errors.

* `StaysOnContext`: host functions run blocks only on the context that they are given.
* `Raises`: a job fails by itself, and not because a part of it does.
* `Nested.depth`: at every moment of such a run the context counts the calls that are under way.
* `Ends.exceeded`: where an error about the depth comes from.
* `Nested.run_script`, `run_exceeded`: the same of the evaluator with its fuel. The moments of a run
  are the calls that it makes to itself (`isSome_run_succ_iff`).
* `call_depth_exact`: calls are refused exactly where that count has reached the limit.
-/

namespace TierScript

namespace Eval

open Machine

variable {env env₁ env' : Env} {j j₁ j' : Job} {m m₁ m' : Machine} {n : Nesting}

/-! ## Host functions that stay on their context -/

/-- Anything but running a block on a derived context. -/
def onContext : Action → Prop
  | .runApart .. | .spawn .. => False
  | _ => True

/-- Host functions run blocks only on the context that they are given, as long as the job runs. -/
def StaysOnContext (env : Env) (j : Job) (m : Machine) : Prop :=
  ∀ env' name a m', Reaches env j m env' (.action name a) m' → onContext a

/-- It is enough that no host function asks for anything else. -/
theorem staysOnContext_of_every (hr : env.registry.Every onContext) (hj : j.Every onContext) :
    StaysOnContext env j m :=
  fun _ _ _ _ h => (h.every hr hj).self

/-- The context of every moment counts the calls that are under way. -/
theorem Nested.depth (hstays : StaysOnContext env j m) (h : Nested env j m n env' j' m') :
    m'.ctx.depth = m.ctx.depth + n.calls := by
  induction h with
  | start => rfl
  | part hbefore he ih =>
    obtain ⟨hdepth, heq⟩ | ⟨-, hdepth, heq⟩ | ⟨_, _, _, rfl, -⟩ | ⟨_, _, _, rfl, -⟩ := he.depth
    · rw [heq, hdepth, ih]
    · rw [heq, hdepth, ih]
      rfl
    · exact (hstays _ _ _ _ hbefore.reaches).elim
    · exact (hstays _ _ _ _ hbefore.reaches).elim

/-! ## Refused calls -/

/-- A job fails by itself: it ends with an error that no part of it ends with. -/
def Raises (env : Env) (j : Job) (m : Machine) (e : EvalError) (m' : Machine) : Prop :=
  Ends env j m (.error e) m' ∧
    ∀ env₁ j₁ m₁ m₂, Enters env j m env₁ j₁ m₁ → ¬ Ends env₁ j₁ m₁ (.error e) m₂

/-- A call is refused if the context has reached the limit, whatever the arguments are, and then
    nothing has happened. -/
theorem raises_exceeded_iff {f : Linked FnDef} {args : List Expr} {limit : Nat} :
    Raises env (.script f args) m (.callDepthExceeded limit) m' ↔
      limit = env.config.maxCallDepth ∧ env.config.maxCallDepth ≤ m.ctx.depth ∧ m' = m := by
  constructor
  · rintro ⟨hends, hparts⟩
    cases hends with
    | tooDeep hdeep => exact ⟨rfl, Nat.le_of_lt_succ hdeep, rfl⟩
    | bodyError hdeep he hbody => exact absurd hbody (hparts _ _ _ _ (.body hdeep he))
  · rintro ⟨rfl, hfull, rfl⟩
    refine ⟨(ends_script_of_full hfull).mpr ⟨rfl, rfl⟩, fun env₁ j₁ m₁ m₂ he _ => ?_⟩
    cases he with
    | body hdeep => omega

/-! ## Where errors about the depth come from -/

theorem assign_error {target : Var} {value : Expr} {e : EvalError}
    (h : m.assign target value = (.error e, m')) : ∃ cause, e = .arith cause := by
  unfold Machine.assign at h
  split at h
  · cases h
  · cases h
    exact ⟨_, rfl⟩

theorem breakOut_error {span : Span} {e : EvalError} (h : m.breakOut span = (.error e, m')) :
    e = .breakOutsideLoop span := by
  unfold breakOut at h
  split at h
  · cases h
  · cases h
    rfl

theorem resolve_error {program : ProgramId} {c : Call} {e : EvalError}
    (h : m.resolve env program c = (.error e, m')) :
    e = .unresolvedFunction c.name c.arity c.span := by
  unfold resolve at h
  dsimp only at h
  split at h
  · cases h
  · split at h
    · cases h
    · cases h
      rfl

theorem resolveModuleCall_error {program : ProgramId} {module : String} {c : Call} {e : EvalError}
    (h : m.resolveModuleCall env program module c = (.error e, m')) :
    e = .unknownModule module c.span ∨
      e = .unresolvedModuleFunction module c.name c.arity c.span := by
  unfold resolveModuleCall at h
  dsimp only at h
  split at h
  · cases h
    exact .inl rfl
  · split at h
    · cases h
      exact .inl rfl
    · split at h
      · cases h
      · cases h
        exact .inr rfl

/-- In the run of the job a call is refused. -/
def Refuses (env : Env) (j : Job) (m : Machine) (limit : Nat) : Prop :=
  ∃ env' f args m', Reaches env j m env' (.script f args) m' ∧
    Raises env' (.script f args) m' (.callDepthExceeded limit) m'

theorem Refuses.part {limit : Nat} (h : Refuses env₁ j₁ m₁ limit)
    (he : Enters env j m env₁ j₁ m₁) : Refuses env j m limit := by
  obtain ⟨env', f, args, m', hreaches, hraises⟩ := h
  exact ⟨env', f, args, m', .part he hreaches, hraises⟩

/-- An error about the depth comes from a call that was refused. A host function cannot pass it on
    as it is. -/
theorem Ends.exceeded {r : Except EvalError Unit} {limit : Nat} (h : Ends env j m r m')
    (hr : r = .error (.callDepthExceeded limit)) : Refuses env j m limit := by
  induction h with
  | tooDeep hdeep =>
    cases hr
    exact ⟨_, _, _, _, .here, raises_exceeded_iff.mpr ⟨rfl, Nat.le_of_lt_succ hdeep, rfl⟩⟩
  | block _ ih => exact (ih hr).part .block
  | stmtsError ht _ ih => exact (ih hr).part (.first ht)
  | stmtsNext ht he _ _ ih => exact (ih hr).part (.rest ht he)
  | stmtBlock _ ih => exact (ih hr).part .stmtBlock
  | assign ha =>
    obtain ⟨_, hcause⟩ := assign_error (hr ▸ ha)
    cases hcause
  | breakLoop hb => cases breakOut_error (hr ▸ hb)
  | ifTrue hc _ ih => exact (ih hr).part (.ifTrue hc)
  | ifFalse hc _ ih => exact (ih hr).part (.ifFalse hc)
  | stmtWhile _ ih => exact (ih hr).part .stmtWhile
  | stmtFor hd hs _ ih => exact (ih hr).part (.stmtFor hd hs)
  | call hc _ ih => exact (ih hr).part (.call hc)
  | moduleCall hc _ ih => exact (ih hr).part (.moduleCall hc)
  | callError hc =>
    cases hr
    cases resolve_error hc
  | moduleCallError hc =>
    cases hr
    obtain h | h := resolveModuleCall_error hc <;> cases h
  | whileBodyError ht hc _ ih => exact (ih hr).part (.whileBody ht hc)
  | whileNext ht hc he _ _ ih => exact (ih hr).part (.whileNext ht hc he)
  | forRange hd hs _ ih => exact (ih hr).part (.forRange hd hs)
  | forArray hv _ ih => exact (ih hr).part (.forArray hv)
  | timesError ht _ ih => exact (ih hr).part (.timesBody ht)
  | timesNext ht he _ _ ih => exact (ih hr).part (.timesNext ht he)
  | forEachError ht _ ih => exact (ih hr).part (.forEachBody ht)
  | forEachNext ht he _ _ ih => exact (ih hr).part (.forEachNext ht he)
  | invokeScript _ ih => exact (ih hr).part .invokeScript
  | invokeNative _ ih => exact (ih hr).part .invokeNative
  | bodyError hdeep he _ ih => exact (ih hr).part (.body hdeep he)
  | request ha _ ih => exact (ih hr).part (.request ha)
  | run he _ _ ih => exact (ih hr).part (.afterRun he)
  | runApart he _ _ ih => exact (ih hr).part (.afterRunApart he)
  | spawnOk he _ _ ih => exact (ih hr).part (.afterSpawn he)
  | spawnError he _ _ ih => exact (ih hr).part (.afterFailedSpawn he)
  | _ => cases hr

/-! ## What the evaluator answers -/

/-- The evaluator's answer to a call at any moment of such a run, whatever the fuel is. Where the
    calls under way have reached the limit it refuses the call before it looks at the arguments, and
    everywhere else the answer comes from the arguments and the body. -/
theorem Nested.run_script (hstays : StaysOnContext env j m) {f : Linked FnDef} {args : List Expr}
    (h : Nested env j m n env' (.script f args) m') (fuel : Nat) :
    Job.run env' (fuel + 1) (.script f args) m' =
      if env.config.maxCallDepth ≤ m.ctx.depth + n.calls then
        some (.error (.callDepthExceeded env.config.maxCallDepth), m')
      else
        match m'.enterCall f.node args with
        | (.error e, m₀) => some (.error (.arith e), m₀.abandonCall m'.ctx)
        | (.ok (), m₀) =>
          match block (env'.hold (.ofFunction f)) fuel ⟨f.program, f.node.body⟩ m₀ with
          | none => none
          | some (.error e, m₁) => some (.error e, m₁.abandonCall m'.ctx)
          | some (.ok (), m₁) => some (.ok (), m₁.leaveCall m'.ctx f.node args) := by
  have hdeep : env.config.maxCallDepth < m.ctx.depth + n.calls + 1 ↔
      env.config.maxCallDepth ≤ m.ctx.depth + n.calls := Nat.lt_succ_iff
  rw [Job.run, script_succ, h.config, h.depth hstays]
  exact if_congr hdeep rfl rfl

/-- Where a run that the evaluator ends with an error about the depth refuses a call: at a moment
    where the calls under way have reached the limit, and the evaluator goes there with no more fuel
    than the whole run has. -/
theorem run_exceeded (hstays : StaysOnContext env j m) {fuel limit : Nat}
    (h : j.run env fuel m = some (.error (.callDepthExceeded limit), m')) :
    limit = env.config.maxCallDepth ∧ ∃ n env' f args m₁, ∃ k ≤ fuel,
      Nested env j m n env' (.script f args) m₁ ∧
        env.config.maxCallDepth ≤ m.ctx.depth + n.calls ∧
        Job.run env' k (.script f args) m₁ =
          some (.error (.callDepthExceeded env.config.maxCallDepth), m₁) := by
  obtain ⟨env', f, args, m₁, hreaches, hraises⟩ := (Ends.of_run h).exceeded rfl
  obtain ⟨n, hnested⟩ := hreaches.nested
  obtain ⟨hlimit, hfull, -⟩ := raises_exceeded_iff.mp hraises
  rw [hnested.config] at hlimit hfull
  rw [hnested.depth hstays] at hfull
  obtain ⟨k, hk, hsome⟩ := hreaches.isSome_run (Option.isSome_iff_exists.mpr ⟨_, h⟩)
  refine ⟨hlimit, n, env', f, args, m₁, k, hk, hnested, hfull, ?_⟩
  cases k with
  | zero => rw [run_zero] at hsome; cases hsome
  | succ k => rw [hnested.run_script hstays, if_pos hfull]

/-! ## The limit -/

/-- As long as host functions stay on their context, the context of every moment of a run counts the
    calls under way, on top of what the first context counts. A call fails by itself because of the
    depth if and only if that number has reached the limit, whatever its arguments are, and then it
    leaves everything as it was. No other error about the depth occurs. -/
theorem call_depth_exact (hstays : StaysOnContext env j m) :
    (∀ n env' j' m', Nested env j m n env' j' m' → m'.ctx.depth = m.ctx.depth + n.calls) ∧
    (∀ n env' f args m', Nested env j m n env' (.script f args) m' → ∀ limit after,
      Raises env' (.script f args) m' (.callDepthExceeded limit) after ↔
        limit = env.config.maxCallDepth ∧ env.config.maxCallDepth ≤ m.ctx.depth + n.calls ∧
          after = m') ∧
    (∀ limit after, Ends env j m (.error (.callDepthExceeded limit)) after →
      ∃ n env' f args m', Nested env j m n env' (.script f args) m' ∧
        limit = env.config.maxCallDepth ∧ env.config.maxCallDepth ≤ m.ctx.depth + n.calls) := by
  have hexact {n env' f args m'} (h : Nested env j m n env' (.script f args) m') {limit after} :
      Raises env' (.script f args) m' (.callDepthExceeded limit) after ↔
        limit = env.config.maxCallDepth ∧ env.config.maxCallDepth ≤ m.ctx.depth + n.calls ∧
          after = m' := by
    rw [raises_exceeded_iff, h.config, h.depth hstays]
  refine ⟨fun _ _ _ _ h => h.depth hstays, fun _ _ _ _ _ h _ _ => hexact h, ?_⟩
  intro limit after hends
  obtain ⟨env', f, args, m', hreaches, hraises⟩ := hends.exceeded rfl
  obtain ⟨n, hnested⟩ := hreaches.nested
  obtain ⟨hlimit, hfull, -⟩ := (hexact hnested).mp hraises
  exact ⟨n, env', f, args, m', hnested, hlimit, hfull⟩

/-- An environment with a limit of two calls, a host function that runs the block after the call
    twice, and a script function. -/
def twoCalls : Env where
  registry := (({ generation := 1 } : Registry).register 2 Tool.twice.callable).register 3
    (.script (Workspace.plainFn "inner" []))
  config := { maxCallDepth := 2 }

theorem twoCalls_onContext : twoCalls.registry.Every onContext := by
  intro c hc
  obtain rfl | rfl : c = Tool.twice.callable ∨ c = .script (Workspace.plainFn "inner" []) := by
    simpa [twoCalls, Registry.callables, Registry.register] using hc
  · intro args
    refine ⟨trivial, fun b => ?_⟩
    cases b with
    | none => trivial
    | some b =>
      refine ⟨trivial, fun r => ?_⟩
      cases r with
      | error e => trivial
      | ok =>
        refine ⟨trivial, fun r => ?_⟩
        cases r <;> trivial
  · trivial

/-- On a context that counts one call, a second call runs a block by a host function, and the call
    in that block is refused. The context for the second call is a used one that counts seven. -/
theorem call_depth_exact_recycled :
    let used : Context := { session := 1, store := 0, depth := 7 }
    let m : Machine :=
      ⟨{ session := 1, store := 0, depth := 1 }, { pool := { idle := [used], capacity := 4 } }⟩
    let inner : Job := .script (Workspace.plainFn "inner" []) []
    StaysOnContext twoCalls (.script (Workspace.outer Tool.twice) []) m ∧
      ∃ n env' m', Nested twoCalls (.script (Workspace.outer Tool.twice) []) m n env' inner m' ∧
        n.calls = 1 ∧ m'.ctx.depth = 2 ∧ Raises env' inner m' (.callDepthExceeded 2) m' := by
  intro used m inner
  have hstays : StaysOnContext twoCalls (.script (Workspace.outer Tool.twice) []) m :=
    staysOnContext_of_every twoCalls_onContext trivial
  have hstart : Nested twoCalls (.script (Workspace.outer Tool.twice) []) m {} _ _ _ := .start
  have hcalled := ((hstart.part (.body (Nat.le_refl 2) rfl)).part .block).part (.first rfl)
  have hasked := ((hcalled.part (.call rfl)).part .invokeNative).part (.request rfl)
  have hblock := (((hasked.part .run).part .block).part (.first rfl)).part (.call rfl)
  have hinner := hblock.part .invokeScript
  obtain ⟨hdepth, hrefused, -⟩ := call_depth_exact hstays
  refine ⟨hstays, _, _, _, hinner, rfl, hdepth _ _ _ _ hinner, ?_⟩
  exact (hrefused _ _ _ _ _ hinner 2 _).mpr ⟨rfl, Nat.le_refl 2, rfl⟩

end Eval

end TierScript
