import TierScript.Proofs.Run.Moves

/-!
# The rules describe the evaluator

Both are compared with the moves that are made with a job.

* `Ends.of_moves`: a job ends by the rules if its moves lead to an end.
* `Ends.of_run`: what the evaluator answers, with whatever fuel, is derivable by the rules.
* `Ends.settles`: what is derivable is the answer of the evaluator from some amount of fuel on.
* `ends_iff`: both together, so that the rules and the evaluator have the same runs.
* `ends_iff_leads`: a job ends exactly as its moves lead to.
* `Ends.unique`: a job that ends does so in one way only.
-/

namespace TierScript

namespace Eval

open Machine

/-! ## From the moves to the rules -/

/-- The move leads to that end. -/
def Move.Ends : Move → Except EvalError Unit → Machine → Prop
  | .stop e, r, m' => e = (r, m')
  | .part env j m, r, m' => Eval.Ends env j m r m'

/-- A job that starts with the move, and goes on with what comes of it, ends so. -/
def Leads (env : Env) (j : Job) (m : Machine) (r : Except EvalError Unit) (m' : Machine) :
    Move → Prop
  | .stop e => e = (r, m')
  | .part env₁ j₁ m₁ => ∃ e, Ends env₁ j₁ m₁ e.1 e.2 ∧ (j.resume env m e).Ends r m'

section Rules

variable {env : Env} {m m' : Machine} {r : Except EvalError Unit}

theorem ends_of_stmts {program : ProgramId} {l : List Stmt}
    (h : Leads env (.stmts program l) m r m' ((Job.stmts program l).start env m)) :
    Ends env (.stmts program l) m r m' := by
  cases l with
  | nil => cases h; exact .stmtsNil
  | cons s rest =>
    rw [Job.start] at h
    split at h
    · next ht => cases h; exact .stmtsStop ht
    · next ht =>
      obtain ⟨⟨_ | _, m₁⟩, h₁, h₂⟩ := h
      · cases h₂; exact .stmtsError (Bool.eq_false_iff.mpr ht) h₁
      · exact .stmtsNext (Bool.eq_false_iff.mpr ht) h₁ h₂

theorem ends_of_ifElse {program : ProgramId} {condition : Conditions} {body : Block}
    {otherwise : Option Block} {span : Span}
    (h : Leads env (.stmt program (.ifElse condition body otherwise span)) m r m'
      (startBranch env program m body otherwise (condition.eval m.lookup))) :
    Ends env (.stmt program (.ifElse condition body otherwise span)) m r m' := by
  rcases hc : condition.eval m.lookup with e | _ | _ <;> rw [hc] at h
  · cases h; exact .ifError hc
  · cases otherwise with
    | none => cases h; exact .ifNone hc
    | some b => obtain ⟨_, h₁, h₂⟩ := h; cases h₂; exact .ifFalse hc h₁
  · obtain ⟨_, h₁, h₂⟩ := h; cases h₂; exact .ifTrue hc h₁

theorem ends_of_forStmt {program : ProgramId} {dest src : Term} {body : Block} {span : Span}
    (h : Leads env (.stmt program (.forLoop dest src body span)) m r m'
      (startFor env m dest ⟨program, body⟩ span (dest.eval m.lookup) (src.eval m.lookup))) :
    Ends env (.stmt program (.forLoop dest src body span)) m r m' := by
  rcases hd : dest.eval m.lookup with e | d <;> rw [hd] at h
  · cases h; exact .forDestError hd
  rcases hs : src.eval m.lookup with e | v <;> rw [hs] at h
  · cases h; exact .forSrcError hd hs
  · obtain ⟨_, h₁, h₂⟩ := h; cases h₂; exact .stmtFor hd hs h₁

theorem ends_of_stmt {program : ProgramId} {s : Stmt}
    (h : Leads env (.stmt program s) m r m' (startStmt env program m s)) :
    Ends env (.stmt program s) m r m' := by
  cases s with
  | block b => obtain ⟨_, h₁, h₂⟩ := h; cases h₂; exact .stmtBlock h₁
  | assign target value span => exact .assign h
  | ifElse => exact ends_of_ifElse h
  | whileLoop condition body span => obtain ⟨_, h₁, h₂⟩ := h; cases h₂; exact .stmtWhile h₁
  | forLoop => exact ends_of_forStmt h
  | breakLoop span => exact .breakLoop h
  | endCode span => cases h; exact .endCode
  | call c =>
    dsimp only [startStmt] at h
    rcases hr : m.resolve env program c with ⟨_ | callable, m₁⟩ <;> rw [hr] at h
    · cases h; exact .callError hr
    · obtain ⟨_, h₁, h₂⟩ := h; cases h₂; exact .call hr h₁
  | moduleCall module c =>
    dsimp only [startStmt] at h
    rcases hr : m.resolveModuleCall env program module c with ⟨_ | callable, m₁⟩ <;> rw [hr] at h
    · cases h; exact .moduleCallError hr
    · obtain ⟨_, h₁, h₂⟩ := h; cases h₂; exact .moduleCall hr h₁

theorem ends_of_whileLoop {condition : Conditions} {body : Linked Block}
    (h : Leads env (.whileLoop condition body) m r m'
      ((Job.whileLoop condition body).start env m)) :
    Ends env (.whileLoop condition body) m r m' := by
  rw [Job.start] at h
  split at h
  · next ht => cases h; exact .whileStop ht
  · next ht =>
    have ht := Bool.eq_false_iff.mpr ht
    rcases hc : condition.eval m.lookup with e | _ | _ <;> rw [hc] at h
    · cases h; exact .whileError ht hc
    · cases h; exact .whileFalse ht hc
    · obtain ⟨⟨_ | _, m₁⟩, h₁, h₂⟩ := h
      · cases h₂; exact .whileBodyError ht hc h₁
      · exact .whileNext ht hc h₁ h₂

theorem ends_of_forLoop {dest : Term} {d s : Value} {body : Linked Block} {span : Span}
    (h : Leads env (.forLoop dest d s body span) m r m'
      ((Job.forLoop dest d s body span).start env m)) :
    Ends env (.forLoop dest d s body span) m r m' := by
  rw [Job.start_forLoop] at h
  split at h
  · next hd hs => obtain ⟨_, h₁, h₂⟩ := h; cases h₂; exact .forRange hd hs h₁
  · next hno =>
    unfold startItems at h
    split at h
    · next hv => obtain ⟨_, h₁, h₂⟩ := h; cases h₂; exact .forArray hv h₁
    · next hskip => cases h; exact .forSkip hno hskip

theorem ends_of_times {count : Nat} {body : Linked Block}
    (h : Leads env (.times count body) m r m' ((Job.times count body).start env m)) :
    Ends env (.times count body) m r m' := by
  rw [Job.start] at h
  split at h
  · next hstop => cases h; exact .timesStop hstop
  · next hgo =>
    obtain ⟨hpos, ht⟩ := not_or.mp hgo
    obtain ⟨k, rfl⟩ := Nat.exists_eq_succ_of_ne_zero hpos
    obtain ⟨⟨_ | _, m₁⟩, h₁, h₂⟩ := h
    · cases h₂; exact .timesError (Bool.eq_false_iff.mpr ht) h₁
    · exact .timesNext (Bool.eq_false_iff.mpr ht) h₁ h₂

theorem ends_of_forEach {v : Var} {items : List Value} {body : Linked Block}
    (h : Leads env (.forEach v items body) m r m' ((Job.forEach v items body).start env m)) :
    Ends env (.forEach v items body) m r m' := by
  cases items with
  | nil => cases h; exact .forEachNil
  | cons item rest =>
    rw [Job.start] at h
    split at h
    · next ht => cases h; exact .forEachStop ht
    · next ht =>
      obtain ⟨⟨_ | _, m₁⟩, h₁, h₂⟩ := h
      · cases h₂; exact .forEachError (Bool.eq_false_iff.mpr ht) h₁
      · exact .forEachNext (Bool.eq_false_iff.mpr ht) h₁ h₂

theorem ends_of_script {f : Linked FnDef} {args : List Expr}
    (h : Leads env (.script f args) m r m' ((Job.script f args).start env m)) :
    Ends env (.script f args) m r m' := by
  rw [Job.start] at h
  split at h
  · next hdeep => cases h; exact .tooDeep hdeep
  · next hdeep =>
    have hdeep := Nat.le_of_not_lt hdeep
    rcases hb : m.enterCall f.node args with ⟨_ | _, m₀⟩ <;> rw [hb] at h
    · cases h; exact .badArgument hdeep hb
    · obtain ⟨⟨_ | _, m₁⟩, h₁, h₂⟩ := h <;> cases h₂
      · exact .bodyError hdeep hb h₁
      · exact .returned hdeep hb h₁

theorem ends_of_action {name : String} {a : Action}
    (h : Leads env (.action name a) m r m' (startAction env name m a)) :
    Ends env (.action name a) m r m' := by
  unfold startAction at h
  cases ha : a.answer? m with
  | some p =>
    rw [ha] at h
    obtain ⟨_, h₁, h₂⟩ := h
    cases a with
    | done | fail | run | runApart | spawn => cases ha
    | _ => cases h₂; exact .request ha h₁
  | none =>
    rw [ha] at h
    cases a with
    | done => cases h; exact .done
    | fail cause => cases h; exact .fail
    | run b next => obtain ⟨_, h₁, h₂⟩ := h; exact .run h₁ h₂
    | runApart b next => obtain ⟨_, h₁, h₂⟩ := h; exact .runApart h₁ h₂
    | spawn b next =>
      obtain ⟨⟨_ | _, apart⟩, h₁, h₂⟩ := h
      · exact .spawnError h₁ h₂
      · exact .spawnOk h₁ h₂
    | _ => cases ha

end Rules

/-- A job ends by the rules if its moves lead to that end. -/
theorem Ends.of_moves {env : Env} {j : Job} {m m' : Machine} {r : Except EvalError Unit}
    (h : Leads env j m r m' (j.start env m)) : Ends env j m r m' := by
  cases j with
  | block b => obtain ⟨_, h₁, h₂⟩ := h; cases h₂; exact .block h₁
  | stmts program l => exact ends_of_stmts h
  | stmt program s => exact ends_of_stmt h
  | whileLoop condition body => exact ends_of_whileLoop h
  | forLoop dest d s body span => exact ends_of_forLoop h
  | times count body => exact ends_of_times h
  | forEach v items body => exact ends_of_forEach h
  | invoke callable args =>
    cases callable with
    | script f => obtain ⟨_, h₁, h₂⟩ := h; cases h₂; exact .invokeScript h₁
    | native name arity body => obtain ⟨_, h₁, h₂⟩ := h; cases h₂; exact .invokeNative h₁
  | script f args => exact ends_of_script h
  | action name a => exact ends_of_action h

/-- What is made of the answers for the parts is what the moves lead to, if these answers are. -/
theorem leads_of_unfold {n : Nat} {env : Env} {j : Job} {m m' : Machine}
    {r : Except EvalError Unit}
    (sound : ∀ {k env j m r m'}, k ≤ n → Job.run env k j m = some (r, m') → Ends env j m r m')
    (h : j.unfold env n m = some (r, m')) : Leads env j m r m' (j.start env m) := by
  rw [Job.unfold] at h
  cases hstart : j.start env m with
  | stop e => rw [hstart] at h; exact Option.some.inj h
  | part env₁ j₁ m₁ =>
    rw [hstart] at h
    obtain ⟨e, h₁, h₂⟩ := Option.bind_eq_some_iff.mp h
    refine ⟨e, sound (Nat.sub_le ..) h₁, ?_⟩
    cases hresume : j.resume env m e with
    | stop e => rw [hresume] at h₂; exact Option.some.inj h₂
    | part env₂ j₂ m₂ => rw [hresume] at h₂; exact sound (Nat.le_refl n) h₂

/-- What the evaluator answers is derivable by the rules. -/
theorem Ends.of_run {env : Env} {fuel : Nat} {j : Job} {m m' : Machine}
    {r : Except EvalError Unit} (h : j.run env fuel m = some (r, m')) : Ends env j m r m' := by
  induction fuel using Nat.strongRecOn generalizing env j m r m' with
  | ind fuel ih =>
    cases fuel with
    | zero => rw [run_zero] at h; cases h
    | succ n =>
      rw [run_succ] at h
      exact .of_moves (leads_of_unfold (fun hk => ih _ (Nat.lt_succ_of_le hk)) h)

section Answers

variable {env : Env} {fuel : Nat} {m m' : Machine} {r : Except EvalError Unit}

theorem Ends.of_block {b : Linked Block} (h : Eval.block env fuel b m = some (r, m')) :
    Ends env (.block b) m r m' := .of_run (j := .block b) h

theorem Ends.of_stmt {program : ProgramId} {s : Stmt}
    (h : Eval.stmt env fuel program s m = some (r, m')) :
    Ends env (.stmt program s) m r m' := .of_run (j := .stmt program s) h

theorem Ends.of_invoke {callable : Callable} {args : List Expr}
    (h : Eval.invoke env fuel callable args m = some (r, m')) :
    Ends env (.invoke callable args) m r m' := .of_run (j := .invoke callable args) h

theorem Ends.of_script {f : Linked FnDef} {args : List Expr}
    (h : Eval.script env fuel f args m = some (r, m')) : Ends env (.script f args) m r m' :=
  .of_run (j := .script f args) h

theorem Ends.of_action {a : Action} {r : Except Cause Unit} (name : String)
    (h : Eval.action env fuel a m = some (r, m')) :
    Ends env (.action name a) m (blame name r) m' := by
  have hrun : Job.run env fuel (.action name a) m = some (blame name r, m') := by
    rw [Job.run, h]
    rfl
  exact .of_run hrun

/-- A task runs its block on a context of its own, and leaves only the world changed. -/
theorem ends_of_task {b : Linked Block} (h : task env fuel b m = some m') :
    ∃ r apart, Ends (env.hold (.ofBlock b)) (.block b)
        ⟨m.ctx.derive, m.world.note (.taskStarted m.ctx.session)⟩ r apart ∧ m'.ctx = m.ctx ∧
      (m'.world = apart.world ∨ ∃ e, m'.world = apart.world.note e) := by
  cases fuel with
  | zero => rw [task] at h; cases h
  | succ n =>
    rw [task.eq_def] at h
    dsimp only at h
    split at h
    · cases h
    · next hblock => cases h; exact ⟨.ok (), _, .of_block hblock, rfl, .inl rfl⟩
    · next hblock => cases h; exact ⟨.error _, _, .of_block hblock, rfl, .inr ⟨_, rfl⟩⟩

end Answers

/-! ## From the rules to the evaluator -/

/-- From some amount of fuel on, the job is answered with the result and the machine. -/
def Settles (env : Env) (j : Job) (m : Machine) (r : Except EvalError Unit) (m' : Machine) : Prop :=
  ∃ N, ∀ n, N ≤ n → j.run env n m = some (r, m')

namespace Settles

variable {env env₁ env₂ : Env} {j j₁ j₂ : Job} {m m₁ m₁' m₂ m' : Machine}
  {r₁ r : Except EvalError Unit}

/-- It suffices to look at amounts greater than one. -/
theorem of_succ (N : Nat) (h : ∀ n, N ≤ n → j.unfold env n m = some (r, m')) :
    Settles env j m r m' := by
  refine ⟨N + 1, fun n hn => ?_⟩
  obtain ⟨k, rfl⟩ : ∃ k, n = k + 1 := ⟨n - 1, by omega⟩
  rw [run_succ]
  exact h k (by omega)

/-- A job that ends at once. -/
theorem stop (h : j.start env m = .stop (r, m')) : Settles env j m r m' :=
  .of_succ 0 fun n _ => by rw [Job.unfold, h]

/-- A job with one part. -/
theorem part (h₁ : Settles env₁ j₁ m₁ r₁ m₁') (h : j.start env m = .part env₁ j₁ m₁)
    (hend : j.resume env m (r₁, m₁') = .stop (r, m')) : Settles env j m r m' := by
  obtain ⟨N, hN⟩ := h₁
  refine .of_succ (N + j.wait j₁) fun n hn => ?_
  simp only [Job.unfold, h, hN (n - j.wait j₁) (by omega), Option.bind_some, hend, Move.run]

/-- A job with two parts. -/
theorem parts (h₁ : Settles env₁ j₁ m₁ r₁ m₁') (h₂ : Settles env₂ j₂ m₂ r m')
    (h : j.start env m = .part env₁ j₁ m₁)
    (hnext : j.resume env m (r₁, m₁') = .part env₂ j₂ m₂) : Settles env j m r m' := by
  obtain ⟨N₁, hN₁⟩ := h₁
  obtain ⟨N₂, hN₂⟩ := h₂
  refine .of_succ (max N₁ N₂ + j.wait j₁) fun n hn => ?_
  simp only [Job.unfold, h, hN₁ (n - j.wait j₁) (by omega), Option.bind_some, hnext, Move.run,
    hN₂ n (by omega)]

end Settles

theorem start_running {env : Env} {program : ProgramId} {s : Stmt} {rest : List Stmt} {m : Machine}
    (ht : m.ctx.isTerminated = false) :
    (Job.stmts program (s :: rest)).start env m =
      .part env (.stmt program s) (offering program rest m) := by
  rw [Job.start, ht]
  rfl

theorem start_ifElse {env : Env} {program : ProgramId} {condition : Conditions} {body : Block}
    {otherwise : Option Block} {span : Span} {m : Machine} {holds : Except ArithError Bool}
    (hc : condition.eval m.lookup = holds) :
    (Job.stmt program (.ifElse condition body otherwise span)).start env m =
      startBranch env program m body otherwise holds := by
  rw [← hc]
  rfl

theorem start_forStmt {env : Env} {program : ProgramId} {dest src : Term} {body : Block}
    {span : Span} {m : Machine} {d s : Except ArithError Value} (hd : dest.eval m.lookup = d)
    (hs : src.eval m.lookup = s) :
    (Job.stmt program (.forLoop dest src body span)).start env m =
      startFor env m dest ⟨program, body⟩ span d s := by
  rw [← hd, ← hs]
  rfl

theorem start_while {env : Env} {condition : Conditions} {body : Linked Block} {m : Machine}
    (ht : m.ctx.isTerminated = false) (hc : condition.eval m.lookup = .ok true) :
    (Job.whileLoop condition body).start env m = .part env (.block body) m := by
  rw [Job.start, ht, hc]
  rfl

theorem start_range {env : Env} {dest : Term} {d s : Value} {body : Linked Block} {span : Span}
    {m : Machine} {first last : Int64} (hd : d.toInteger? = some first)
    (hs : s.toInteger? = some last) :
    (Job.forLoop dest d s body span).start env m =
      .part env (.times (rangeCount first last) body) m := by
  rw [Job.start_forLoop, hd, hs]

theorem start_items {env : Env} {dest : Term} {d : Value} {items : List Value}
    {body : Linked Block} {span : Span} {m : Machine} {v : Var} (hv : dest.plainVar? = some v) :
    (Job.forLoop dest d (.array items) body span).start env m =
      .part env (.forEach v items body) m := by
  have hitems : startItems env m dest d (.array items) body span =
      .part env (.forEach v items body) m := by
    unfold startItems
    rw [hv]
  rw [Job.start_forLoop]
  cases d.toInteger? <;> exact hitems

theorem start_skip {env : Env} {dest : Term} {d s : Value} {body : Linked Block} {span : Span}
    {m : Machine} (hno : ∀ first last, d.toInteger? = some first → s.toInteger? ≠ some last)
    (hskip : ∀ v items, dest.plainVar? = some v → s ≠ .array items) :
    (Job.forLoop dest d s body span).start env m =
      .stop (.ok (), m.note (.skippedLoop span d.typeName s.typeName)) := by
  have hitems : startItems env m dest d s body span =
      .stop (.ok (), m.note (.skippedLoop span d.typeName s.typeName)) := by
    unfold startItems
    split
    · next hv => exact absurd rfl (hskip _ _ hv)
    · rfl
  rw [Job.start_forLoop]
  split
  · next hd hs => exact absurd hs (hno _ _ hd)
  · exact hitems

theorem start_times {env : Env} {count : Nat} {body : Linked Block} {m : Machine}
    (ht : m.ctx.isTerminated = false) :
    (Job.times (count + 1) body).start env m = .part env (.block body) m := by
  simp [Job.start, ht]

theorem start_forEach {env : Env} {v : Var} {item : Value} {rest : List Value}
    {body : Linked Block} {m : Machine} (ht : m.ctx.isTerminated = false) :
    (Job.forEach v (item :: rest) body).start env m =
      .part env (.block body) (m.write v item) := by
  rw [Job.start, ht]
  rfl

theorem start_body {env : Env} {f : Linked FnDef} {args : List Expr} {m m₀ : Machine}
    (hdeep : m.ctx.depth + 1 ≤ env.config.maxCallDepth)
    (he : m.enterCall f.node args = (.ok (), m₀)) :
    (Job.script f args).start env m =
      .part (env.hold (.ofFunction f)) (.block ⟨f.program, f.node.body⟩) m₀ := by
  rw [Job.start, if_neg (Nat.not_lt.mpr hdeep), he]

theorem start_request {env : Env} {name : String} {a a₁ : Action} {m m₁ : Machine}
    (h : a.answer? m = some (a₁, m₁)) :
    (Job.action name a).start env m = .part env (.action name a₁) m₁ := by
  rw [Job.start, startAction.eq_def, h]

theorem resume_request {env : Env} {name : String} {a a₁ : Action} {m m₁ : Machine} {e : Ending}
    (h : a.answer? m = some (a₁, m₁)) : (Job.action name a).resume env m e = .stop e := by
  cases a with
  | done | fail | run | runApart | spawn => cases h
  | _ => rfl

theorem Ends.settles {env : Env} {j : Job} {m m' : Machine} {r : Except EvalError Unit}
    (h : Ends env j m r m') : Settles env j m r m' := by
  induction h with
  | block _ ih => exact ih.part rfl rfl
  | stmtsNil => exact .stop rfl
  | stmtsStop ht => exact .stop (if_pos ht)
  | stmtsError ht _ ih => exact ih.part (start_running ht) rfl
  | stmtsNext ht _ _ ih₁ ih₂ => exact ih₁.parts ih₂ (start_running ht) rfl
  | stmtBlock _ ih => exact ih.part rfl rfl
  | assign h => exact .stop (congrArg Move.stop h)
  | ifError hc | ifNone hc => exact .stop (start_ifElse hc)
  | ifTrue hc _ ih | ifFalse hc _ ih => exact ih.part (start_ifElse hc) rfl
  | stmtWhile _ ih => exact ih.part rfl rfl
  | forDestError hd => exact .stop (start_forStmt hd rfl)
  | forSrcError hd hs => exact .stop (start_forStmt hd hs)
  | stmtFor hd hs _ ih => exact ih.part (start_forStmt hd hs) rfl
  | breakLoop h => exact .stop (congrArg Move.stop h)
  | endCode => exact .stop rfl
  | callError hr | moduleCallError hr => exact .stop (congrArg (startCall _ _) hr)
  | call hr _ ih | moduleCall hr _ ih => exact ih.part (congrArg (startCall _ _) hr) rfl
  | whileStop ht => exact .stop (if_pos ht)
  | whileError ht hc | whileFalse ht hc => exact .stop (by rw [Job.start, ht, hc]; rfl)
  | whileBodyError ht hc _ ih => exact ih.part (start_while ht hc) rfl
  | whileNext ht hc _ _ ih₁ ih₂ => exact ih₁.parts ih₂ (start_while ht hc) rfl
  | forRange hd hs _ ih => exact ih.part (start_range hd hs) rfl
  | forArray hv _ ih => exact ih.part (start_items hv) rfl
  | forSkip hno hskip => exact .stop (start_skip hno hskip)
  | timesStop hstop => exact .stop (if_pos hstop)
  | timesError ht _ ih => exact ih.part (start_times ht) rfl
  | timesNext ht _ _ ih₁ ih₂ => exact ih₁.parts ih₂ (start_times ht) rfl
  | forEachNil => exact .stop rfl
  | forEachStop ht => exact .stop (if_pos ht)
  | forEachError ht _ ih => exact ih.part (start_forEach ht) rfl
  | forEachNext ht _ _ ih₁ ih₂ => exact ih₁.parts ih₂ (start_forEach ht) rfl
  | invokeScript _ ih | invokeNative _ ih => exact ih.part rfl rfl
  | tooDeep hdeep => exact .stop (if_pos hdeep)
  | badArgument hdeep hb =>
    exact .stop (by rw [Job.start, if_neg (Nat.not_lt.mpr hdeep), hb])
  | bodyError hdeep hb _ ih | returned hdeep hb _ ih => exact ih.part (start_body hdeep hb) rfl
  | done | fail => exact .stop rfl
  | request ha _ ih => exact ih.part (start_request ha) (resume_request ha)
  | run _ _ ih₁ ih₂ | runApart _ _ ih₁ ih₂ | spawnOk _ _ ih₁ ih₂ | spawnError _ _ ih₁ ih₂ =>
    exact ih₁.parts ih₂ rfl rfl

/-- The rules and the evaluator have the same runs. -/
theorem ends_iff {env : Env} {j : Job} {m m' : Machine} {r : Except EvalError Unit} :
    Ends env j m r m' ↔ ∃ fuel, j.run env fuel m = some (r, m') := by
  constructor
  · intro h
    obtain ⟨N, hN⟩ := h.settles
    exact ⟨N, hN N (Nat.le_refl N)⟩
  · rintro ⟨fuel, h⟩
    exact .of_run h

/-- A job ends exactly as its moves lead to. -/
theorem ends_iff_leads {env : Env} {j : Job} {m m' : Machine} {r : Except EvalError Unit} :
    Ends env j m r m' ↔ Leads env j m r m' (j.start env m) := by
  refine ⟨fun h => ?_, .of_moves⟩
  obtain ⟨fuel, h⟩ := ends_iff.mp h
  cases fuel with
  | zero => rw [run_zero] at h; cases h
  | succ n =>
    rw [run_succ] at h
    exact leads_of_unfold (fun _ => .of_run) h

/-- A job that ends does so in one way only. -/
theorem Ends.unique {env : Env} {j : Job} {m m₁ m₂ : Machine} {r₁ r₂ : Except EvalError Unit}
    (h₁ : Ends env j m r₁ m₁) (h₂ : Ends env j m r₂ m₂) : r₁ = r₂ ∧ m₁ = m₂ := by
  obtain ⟨N₁, hN₁⟩ := h₁.settles
  obtain ⟨N₂, hN₂⟩ := h₂.settles
  have heq := (hN₁ (max N₁ N₂) (by omega)).symm.trans (hN₂ (max N₁ N₂) (by omega))
  simpa using heq

end Eval

end TierScript
