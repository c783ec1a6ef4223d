import TierScript.Proofs.Host.Backing
import TierScript.Proofs.Program.Language

/-!
# How deep calls are nested

A configuration limits how deep calls of script functions may be nested. The count is kept by the
contexts: the context of a call counts one more than that of its caller. A derived context counts
nothing, also where a host function runs a block on it and waits.

* `Nesting`: how many calls are under way at a moment of a run, and how many of them are within the
  innermost block that runs apart. `Nested` counts along `Enters`, so it knows every moment that
  `Reaches` does.
* `Nested.fits`: a context counts exactly the calls within the innermost block that runs apart.
* `call_depth_bounded`: the limit holds for those calls. It holds for all calls as long as no block
  runs apart, and each such block allows as many calls again.
* `call_depth_exceeded`: so it does not hold for all calls.
-/

namespace TierScript

namespace Eval

open Machine

/-! ## Counting calls -/

/-- What is under way at a moment of a run, on the thread of that moment. -/
structure Nesting where
  /-- Calls of script functions. -/
  calls : Nat := 0
  /-- Those of them that began within the innermost block that runs apart. -/
  inner : Nat := 0
  /-- Blocks that run on a derived context while a host function waits. -/
  apart : Nat := 0
  deriving DecidableEq, Repr, Inhabited

namespace Nesting

/-- The nesting of a part of a job, from that of the job. A task is a thread of its own. -/
def enter (n : Nesting) : Job → Job → Nesting
  | .script .., .block _ => { n with calls := n.calls + 1, inner := n.inner + 1 }
  | .action _ (.runApart ..), .block _ => { n with inner := 0, apart := n.apart + 1 }
  | .action _ (.spawn ..), .block _ => {}
  | _, _ => n

@[simp] theorem enter_action (n : Nesting) (name name' : String) (a a' : Action) :
    n.enter (.action name a) (.action name' a') = n := by
  cases a <;> rfl

/-- What the limit allows, on a context that counts `depth`. -/
structure Fits (n : Nesting) (limit depth : Nat) : Prop where
  counted : depth = n.inner
  inner_le : n.inner ≤ limit
  calls_le : n.calls ≤ n.inner + n.apart * limit
  calls_eq : n.apart = 0 → n.calls = n.inner

theorem Fits.start (limit : Nat) : ({} : Nesting).Fits limit 0 where
  counted := rfl
  inner_le := Nat.zero_le limit
  calls_le := Nat.zero_le _
  calls_eq _ := rfl

theorem Fits.call {n : Nesting} {limit depth : Nat} (h : n.Fits limit depth)
    (hdeep : depth + 1 ≤ limit) :
    Fits { n with calls := n.calls + 1, inner := n.inner + 1 } limit (depth + 1) := by
  obtain ⟨hcounted, -, hle, heq⟩ := h
  refine ⟨by rw [hcounted], ?_, ?_, ?_⟩
  · rwa [hcounted] at hdeep
  · dsimp only
    omega
  · intro hnone
    rw [heq hnone]

theorem Fits.derived {n : Nesting} {limit depth : Nat} (h : n.Fits limit depth) :
    Fits { n with inner := 0, apart := n.apart + 1 } limit 0 where
  counted := rfl
  inner_le := Nat.zero_le limit
  calls_le := by
    have hle := h.calls_le
    have hinner := h.inner_le
    simp only [Nat.succ_mul]
    omega
  calls_eq hnone := nomatch hnone

/-- The limit once for every block that runs apart, and once more. -/
theorem Fits.calls_le_mul {n : Nesting} {limit depth : Nat} (h : n.Fits limit depth) :
    n.calls ≤ (n.apart + 1) * limit := by
  have hle := h.calls_le
  have hinner := h.inner_le
  rw [Nat.succ_mul]
  omega

end Nesting

/-- Running the first job comes to running the second one, with the given nesting. -/
inductive Nested (env : Env) (j : Job) (m : Machine) : Nesting → Env → Job → Machine → Prop where
  | start : Nested env j m {} env j m
  | part {n env₁ j₁ m₁ env₂ j₂ m₂} :
      Nested env j m n env₁ j₁ m₁ → Enters env₁ j₁ m₁ env₂ j₂ m₂ →
      Nested env j m (n.enter j₁ j₂) env₂ j₂ m₂

variable {env env₁ env' : Env} {j j₁ j' : Job} {m m₁ m' : Machine} {n : Nesting}

theorem Reaches.next (h : Reaches env j m env₁ j₁ m₁) (he : Enters env₁ j₁ m₁ env' j' m') :
    Reaches env j m env' j' m' := by
  induction h with
  | here => exact .part he .here
  | part hfirst _ ih => exact .part hfirst (ih he)

theorem Nested.reaches (h : Nested env j m n env' j' m') : Reaches env j m env' j' m' := by
  induction h with
  | start => exact .here
  | part _ he ih => exact ih.next he

/-- Every moment of a run has a nesting. -/
theorem Reaches.nested (h : Reaches env j m env' j' m') : ∃ n, Nested env j m n env' j' m' := by
  suffices hfrom : ∀ {env₀ j₀ m₀ n}, Nested env₀ j₀ m₀ n env j m →
      ∃ n', Nested env₀ j₀ m₀ n' env' j' m' from hfrom .start
  induction h with
  | here => exact fun h₀ => ⟨_, h₀⟩
  | part he _ ih => exact fun h₀ => ih (h₀.part he)

/-! ## What contexts count -/

theorem Nested.config (h : Nested env j m n env' j' m') : env'.config = env.config := by
  induction h with
  | start => rfl
  | part _ he ih => exact he.config.trans ih

theorem enterCall_depth {f : FnDef} {args : List Expr} {r : Except ArithError Unit}
    (h : m.enterCall f args = (r, m')) : m'.ctx.depth = m.ctx.depth + 1 := by
  have hcontrol := enterCall_control m f args
  rw [h] at hcontrol
  exact (Context.control_eq_iff.mp hcontrol).2.2.2.2.2.2

/-- What a part of a job counts: a call one more than its caller, a block that runs apart and a task
    nothing, and every other part what the job counts. -/
theorem Enters.depth (h : Enters env j m env' j' m') :
    (m'.ctx.depth = m.ctx.depth ∧ ∀ n : Nesting, n.enter j j' = n) ∨
    (m.ctx.depth + 1 ≤ env.config.maxCallDepth ∧ m'.ctx.depth = m.ctx.depth + 1 ∧
      ∀ n : Nesting, n.enter j j' = { n with calls := n.calls + 1, inner := n.inner + 1 }) ∨
    (∃ name b next, j = .action name (.runApart b next) ∧ m'.ctx.depth = 0 ∧
      ∀ n : Nesting, n.enter j j' = { n with inner := 0, apart := n.apart + 1 }) ∨
    (∃ name b next, j = .action name (.spawn b next) ∧ m'.ctx.depth = 0 ∧
      ∀ n : Nesting, n.enter j j' = {}) := by
  cases h with
  | body hdeep he => exact .inr (.inl ⟨hdeep, enterCall_depth he, fun _ => rfl⟩)
  | runApart => exact .inr (.inr (.inl ⟨_, _, _, rfl, rfl, fun _ => rfl⟩))
  | spawn => exact .inr (.inr (.inr ⟨_, _, _, rfl, rfl, fun _ => rfl⟩))
  | stmtBlock | ifTrue | ifFalse | stmtWhile | stmtFor | whileBody | forRange | forArray | timesBody
  | invokeScript | invokeNative | run | afterRunApart | afterSpawn | afterFailedSpawn =>
    exact .inl ⟨rfl, fun _ => rfl⟩
  | block => exact .inl ⟨enterBlock_depth .., fun _ => rfl⟩
  | first => exact .inl ⟨(Context.framed_offer m.ctx _).depth, fun _ => rfl⟩
  | rest _ he =>
    exact .inl ⟨((Context.framed_offer m.ctx _).trans he.restores.1).depth, fun _ => rfl⟩
  | whileNext _ _ he | timesNext _ he | afterRun he =>
    exact .inl ⟨he.restores.1.depth, fun _ => rfl⟩
  | call hr => exact .inl ⟨by rw [resolve_ctx hr], fun _ => rfl⟩
  | moduleCall hr => exact .inl ⟨by rw [resolveModuleCall_ctx hr], fun _ => rfl⟩
  | forEachBody => exact .inl ⟨(framed_write m _ _).depth, fun _ => rfl⟩
  | forEachNext _ he =>
    exact .inl ⟨((framed_write m _ _).trans he.restores.1).depth, fun _ => rfl⟩
  | request ha => exact .inl ⟨(Action.framed_answer ha).depth, fun n => n.enter_action ..⟩

/-- A part of a job fits the limit if the job does: a call is refused where it would not, and a
    derived context starts to count again. -/
theorem Enters.fits (h : Enters env j m env' j' m')
    (hn : n.Fits env.config.maxCallDepth m.ctx.depth) :
    (n.enter j j').Fits env.config.maxCallDepth m'.ctx.depth := by
  obtain ⟨hdepth, heq⟩ | ⟨hdeep, hdepth, heq⟩ | ⟨_, _, _, -, hdepth, heq⟩ |
    ⟨_, _, _, -, hdepth, heq⟩ := h.depth
  · rw [heq, hdepth]; exact hn
  · rw [heq, hdepth]; exact hn.call hdeep
  · rw [heq, hdepth]; exact hn.derived
  · rw [heq, hdepth]; exact .start _

/-- At every moment of a run on a context that counts nothing, the context counts the calls within
    the innermost block that runs apart, and there are no more of them than the limit. -/
theorem Nested.fits (h : Nested env j m n env' j' m') (hm : m.ctx.depth = 0) :
    n.Fits env.config.maxCallDepth m'.ctx.depth := by
  induction h with
  | start => rw [hm]; exact .start _
  | part hbefore he ih =>
    rw [← hbefore.config] at ih ⊢
    exact he.fits ih

/-! ## Host functions that run no block apart -/

/-- Anything but running a block on a derived context while the host function waits. -/
def neverApart : Action → Prop
  | .runApart .. => False
  | _ => True

/-- If no host function runs a block apart, no block runs apart. -/
theorem Nested.apart_eq_zero (h : Nested env j m n env' j' m')
    (hr : env.registry.Every neverApart) (hj : j.Every neverApart) : n.apart = 0 := by
  suffices hboth : j'.Every neverApart ∧ env'.registry = env.registry ∧ n.apart = 0 from hboth.2.2
  induction h with
  | start => exact ⟨hj, rfl, rfl⟩
  | part _ he ih =>
    obtain ⟨hevery, hregistry, hzero⟩ := ih
    refine ⟨he.every (hregistry ▸ hr) hevery, he.registry.trans hregistry, ?_⟩
    cases he with
    | runApart => exact hevery.self.elim
    | spawn => rfl
    | request => rw [Nesting.enter_action]; exact hzero
    | _ => exact hzero

/-- A call that would exceed the limit does nothing and fails. -/
theorem ends_script_of_full {f : Linked FnDef} {args : List Expr} {r : Except EvalError Unit}
    (h : env.config.maxCallDepth ≤ m.ctx.depth) :
    Ends env (.script f args) m r m' ↔
      r = .error (.callDepthExceeded env.config.maxCallDepth) ∧ m' = m := by
  have hends : Ends env (.script f args) m
      (.error (.callDepthExceeded env.config.maxCallDepth)) m := .tooDeep (by omega)
  constructor
  · exact fun h' => h'.unique hends
  · rintro ⟨rfl, rfl⟩
    exact hends

theorem ends_tooDeep_iff {f : Linked FnDef} {args : List Expr} {r : Except EvalError Unit}
    (h : m.ctx.depth = env.config.maxCallDepth) :
    Ends env (.script f args) m r m' ↔
      r = .error (.callDepthExceeded env.config.maxCallDepth) ∧ m' = m :=
  ends_script_of_full (Nat.le_of_eq h.symm)

end Eval

namespace Workspace

open Machine

variable {ws ws' : Workspace}

/-! ## Contexts of a workspace -/

/-- No context with a name counts any calls. -/
def Uncounted (ws : Workspace) : Prop := ∀ x ∈ ws.contexts, x.2.depth = 0

/-- A request that makes no context count. Only adjustments could. -/
def leavesUncounted : Request → Prop
  | .adjust _ f => ∀ c, c.depth = 0 → (f c).depth = 0
  | _ => True

theorem Uncounted.lookup {context : String} {c : Context} (h : ws.Uncounted)
    (hc : ws.contexts.lookup context = some c) : c.depth = 0 := h _ (mem_of_lookup hc)

theorem Uncounted.serve {r : Request} {a : Answer} (h : ws.Uncounted) (hr : leavesUncounted r)
    (hs : ws.serve r = some (a, ws')) : ws'.Uncounted := by
  refine (effect_serve hs).contexts (fun hframe hc => hframe.depth.trans hc) (fun _ _ => rfl)
    (fun _ _ => rfl) ?_ h
  rintro context f rfl c hc
  exact hr c hc

theorem Uncounted.serveAll {rs : List Request} {answers : List Answer} (h : ws.Uncounted)
    (hrs : ∀ r ∈ rs, leavesUncounted r) (hs : ws.serveAll rs = some (answers, ws')) :
    ws'.Uncounted :=
  serveAll_induction (fun hr hserve hp => hp.serve (hrs _ hr) hserve) h hs

/-- What is taken from a pool counts nothing. -/
theorem obtain_depth {w : World} (h : w.pool.Cleared) (session : SessionId) :
    (w.obtain session).1.depth = 0 := by
  unfold World.obtain Pool.obtain
  cases hidle : w.pool.idle with
  | nil => rfl
  | cons c rest =>
    have hc : c.reset = c := h c (by rw [hidle]; exact List.mem_cons_self)
    have hdepth : c.depth = 0 := by rw [← hc]; rfl
    simp only [Context.rebind]
    split <;> exact hdepth

variable {rs : List Request} {answers : List Answer} {r : Request} {env env' : Env}
  {j j' : Eval.Job} {m m' : Machine} {n : Eval.Nesting}

theorem Starts.depth (h : Starts ws r env j m) (hcleared : ws.Cleared) (hw : ws.Uncounted) :
    m.ctx.depth = 0 := by
  cases h with
  | eval | evalText => exact obtain_depth (hcleared.worldOf _) _
  | spawn => rfl
  | evalWith _ hc | invokeScript _ hc | invokeNative _ hc => exact hw.lookup hc

theorem Starts.nested (_ : Starts ws r env j m) : Eval.Nested env j m {} env j m := .start

/-- After any requests, at every moment of what runs while the next one is served, there are at most
    as many calls under way within the innermost block that runs apart as the limit says; a call
    beyond that fails and does nothing. So each block that runs apart allows as many calls again,
    and without such blocks the limit holds for all calls. -/
theorem call_depth_bounded (hserved : ({} : Workspace).serveAll rs = some (answers, ws))
    (hrs : ∀ r ∈ rs, leavesUncounted r) (hstart : Starts ws r env j m)
    (hnested : Eval.Nested env j m n env' j' m') :
    n.inner ≤ env.config.maxCallDepth ∧
    n.calls ≤ (n.apart + 1) * env.config.maxCallDepth ∧
    (n.apart = 0 → n.calls ≤ env.config.maxCallDepth) ∧
    (env.registry.Every Eval.neverApart → j.Every Eval.neverApart → n.apart = 0) ∧
    ∀ f args, j' = .script f args →
      (n.inner = env.config.maxCallDepth → ∀ result after,
        Eval.Ends env' j' m' result after ↔
          result = .error (.callDepthExceeded env.config.maxCallDepth) ∧ after = m') ∧
      (n.inner < env.config.maxCallDepth → ∀ callee, m'.enterCall f.node args = (.ok (), callee) →
        Eval.Nested env j m ⟨n.calls + 1, n.inner + 1, n.apart⟩
          (env'.hold (.ofFunction f)) (.block ⟨f.program, f.node.body⟩) callee) := by
  have hempty : ({} : Workspace).Uncounted := List.forall_mem_nil _
  have huncounted := hempty.serveAll hrs hserved
  have hfits := hnested.fits (hstart.depth (serveAll_cleared hserved) huncounted)
  refine ⟨hfits.inner_le, hfits.calls_le_mul, ?_, hnested.apart_eq_zero, ?_⟩
  · intro hnone
    rw [hfits.calls_eq hnone]
    exact hfits.inner_le
  · rintro f args rfl
    have hconfig := hnested.config
    constructor
    · intro hfull result after
      rw [← hconfig] at hfull ⊢
      exact Eval.ends_tooDeep_iff (hfits.counted.trans hfull)
    · intro hfree callee henter
      have hdeep : m'.ctx.depth + 1 ≤ env'.config.maxCallDepth := by
        rw [hconfig, hfits.counted]
        exact hfree
      exact hnested.part (.body hdeep henter)

/-! ## Two calls where one is allowed -/

/-- A function without parameters. -/
def plainFn (name : String) (stmts : List Stmt) : Linked FnDef :=
  ⟨9, ⟨name, [], [], ⟨stmts, [], .first⟩, .first⟩⟩

/-- A call without arguments. -/
def plainCall (name : String) : Stmt := .call ⟨name, [], .first⟩

/-- A function that hands a host function a block with the call of another function. -/
def outer (tool : Tool) : Linked FnDef :=
  plainFn "outer" [plainCall tool.name, .block ⟨[plainCall "inner"], [], .first⟩]

/-- An interpreter that allows one call, with a host function and a script function. -/
def oneCall (tool : Tool) : List Request :=
  [.addInterpreter "main" 1 { maxCallDepth := 1 }, .register "main" tool.callable,
    .register "main" (.script (plainFn "inner" [])), .newContext "c" 1]

/-- The workspace after these requests. -/
def oneCallAllowed (tool : Tool) : Workspace :=
  ((({} : Workspace).serveAll (oneCall tool)).getD default).2

/-- The outer function runs a block apart that calls the inner one. -/
def throughApart : Source := .ofString "m"
  "fn outer() iso() { r.inner() } end fn fn inner() print(1) end fn"

/-- A block that runs apart may call a function, even if all calls that are allowed are under way,
    and a program can see it. -/
theorem call_depth_exceeded :
    (¬ ∀ rs answers ws r env j m n env' j' m',
      ({} : Workspace).serveAll rs = some (answers, ws) → Starts ws r env j m →
      Eval.Nested env j m n env' j' m' → n.calls ≤ env.config.maxCallDepth) ∧
    ∃ b p, parse throughApart = .ok b ∧ parse (.ofString "p" "r.outer()") = .ok p ∧
      printed (({} : Workspace).serveAll
        [.addInterpreter "main" 1 { maxCallDepth := 1 }, .register "main" Tool.print.callable,
          .register "main" Tool.iso.callable,
          .registerModule "main" (({ name := "r" } : Module).addProgram ⟨8, b⟩),
          .eval "main" ⟨9, p⟩, .drain]) = ["1"] := by
  constructor
  · intro hall
    have hserved : ({} : Workspace).serveAll (oneCall Tool.iso) =
        some (_, oneCallAllowed Tool.iso) := rfl
    have hi : (oneCallAllowed Tool.iso).interpreters.lookup "main" = some _ := rfl
    have hc : (oneCallAllowed Tool.iso).contexts.lookup "c" = some _ := rfl
    have hstart : Starts _ _ _ (.script (outer Tool.iso) []) _ := .invokeScript hi hc
    have hwithin := hstart.nested.part (.body (Nat.le_refl 1) rfl)
    have hasked := ((hwithin.part .block).part (.first rfl)).part (.call rfl)
    have hapart := ((hasked.part .invokeNative).part (.request rfl)).part .runApart
    have hcalled := (((hapart.part .block).part (.first rfl)).part (.call rfl)).part .invokeScript
    have hle := hall _ _ _ _ _ _ _ _ _ _ _ hserved hstart
      (hcalled.part (.body (Nat.le_refl 1) rfl))
    exact absurd hle (by decide)
  · have htest : (parse throughApart).toOption.any (fun b =>
        (parse (.ofString "p" "r.outer()")).toOption.any fun p =>
          printed (({} : Workspace).serveAll
            [.addInterpreter "main" 1 { maxCallDepth := 1 }, .register "main" Tool.print.callable,
              .register "main" Tool.iso.callable,
              .registerModule "main" (({ name := "r" } : Module).addProgram ⟨8, b⟩),
              .eval "main" ⟨9, p⟩, .drain]) = ["1"]) = true := by
      decide +kernel
    obtain ⟨b, hb, hany⟩ := exists_ok_of_any htest
    obtain ⟨p, hp, hprinted⟩ := exists_ok_of_any hany
    exact ⟨b, p, hb, hp, of_decide_eq_true hprinted⟩

/-- If the block runs on the context of its caller, the second call fails. -/
theorem call_depth_bounded_twice :
    ∃ r env j m n env' m', Starts (oneCallAllowed Tool.twice) r env j m ∧
      Eval.Nested env j m n env' (.script (plainFn "inner" []) []) m' ∧ n = ⟨1, 1, 0⟩ ∧
      Eval.Ends env' (.script (plainFn "inner" []) []) m' (.error (.callDepthExceeded 1)) m' := by
  have hserved : ({} : Workspace).serveAll (oneCall Tool.twice) =
      some (_, oneCallAllowed Tool.twice) := rfl
  have hi : (oneCallAllowed Tool.twice).interpreters.lookup "main" = some _ := rfl
  have hc : (oneCallAllowed Tool.twice).contexts.lookup "c" = some _ := rfl
  have hstart : Starts _ _ _ (.script (outer Tool.twice) []) _ := .invokeScript hi hc
  have hwithin := hstart.nested.part (.body (Nat.le_refl 1) rfl)
  have hasked := ((hwithin.part .block).part (.first rfl)).part (.call rfl)
  have hrun := ((hasked.part .invokeNative).part (.request rfl)).part .run
  have hcalled := (((hrun.part .block).part (.first rfl)).part (.call rfl)).part .invokeScript
  have hrs : ∀ r ∈ oneCall Tool.twice, leavesUncounted r := by
    simp [oneCall, leavesUncounted]
  have hbounded := call_depth_bounded hserved hrs hstart hcalled
  obtain ⟨-, -, -, -, hcall⟩ := hbounded
  exact ⟨_, _, _, _, _, _, _, hstart, hcalled, rfl, ((hcall _ _ rfl).1 rfl _ _).mpr ⟨rfl, rfl⟩⟩

end Workspace

end TierScript
