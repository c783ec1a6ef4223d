import TierScript.Host.Toolbox
import TierScript.Proofs.Program.Language
import TierScript.Proofs.Run.Marks
import TierScript.Proofs.Run.Parts

/-!
# Marks implement structured control flow

The evaluator steers by marks on the context, the rules of `Runs` by outcomes. Here the two are
shown to agree.

* `Orderly`: what a run needs for the comparison. No host function touches the marks, and none fails
  after a block that it ran has broken or exited (`NoLateFailure`).
* `Ends.follows`: what the evaluator does is a run with outcomes.
* `Runs.ends`: every run with outcomes is one of the evaluator.
* `marks_refine_outcomes`: both together for whole programs.
* `marks_differ_from_outcomes`: where a host function does fail so late, they differ.
-/

namespace TierScript

namespace Eval

open Machine

/-! ## Runs that can be compared -/

/-- At every moment of the run of the job, a host function that fails does so before any block that
    it ran has broken or exited. -/
def NoLateFailure (env : Env) (j : Job) (m : Machine) : Prop :=
  ∀ env' name cause m', Reaches env j m env' (.action name (.fail cause)) m' →
    m'.ctx.isTerminated = false

/-- What a run needs for its marks to be outcomes. -/
structure Orderly (env : Env) (j : Job) (m : Machine) : Prop where
  registry : env.registry.Every Neutral
  job : j.Every Neutral
  blank : m.world.Blank
  timely : NoLateFailure env j m

variable {env env₁ : Env} {j j₁ j₂ : Job} {m m₀ m₁ m' : Machine} {l : List Bool}

theorem Orderly.part (h : Orderly env j m) (he : Enters env j m env₁ j₁ m₁) :
    Orderly env₁ j₁ m₁ where
  registry := he.registry ▸ h.registry
  job := he.every h.registry h.job
  blank := he.upkeep (upkeep_blank _) h.blank
  timely _ _ _ _ hr := h.timely _ _ _ _ (.part he hr)

/-- The signal that can be pending when the job starts. -/
def Job.pending : Job → Signal → Signal
  | .action .., signal => signal
  | _, _ => .normal

theorem Job.pending_normal (j : Job) : j.pending .normal = .normal := by
  cases j <;> rfl

/-! ## From marks to outcomes -/

/-- What the evaluator does with a job from `m` to `m'` is a run with outcomes, in the loops `l` and
    with the signal pending at the start. -/
def Follows (env : Env) (l : List Bool) (signal : Signal) (j : Job) (m : Machine)
    (r : Except EvalError Unit) (m' : Machine) : Prop :=
  ∃ o : Outcome, o.result = r ∧ Pending l o.signal m'.ctx ∧
    Runs env (!l.isEmpty) signal j (m.marked [] false) o (m'.marked [] false)

namespace Follows

variable {signal signal₁ : Signal} {r : Except EvalError Unit}

/-- A job that ends at once. -/
theorem now {o : Outcome}
    (hruns : Runs env (!l.isEmpty) signal j (m.marked [] false) o (m'.marked [] false))
    (hp : Pending l o.signal m'.ctx) (ho : o.result = r) :
    Follows env l signal j m r m' := ⟨o, ho, hp, hruns⟩

/-- A job that comes to what another one comes to. -/
theorem like (h : Follows env₁ l signal₁ j₁ m₀ r m')
    (rule : ∀ {o}, Runs env₁ (!l.isEmpty) signal₁ j₁ (m₀.marked [] false) o (m'.marked [] false) →
      Runs env (!l.isEmpty) signal j (m.marked [] false) o (m'.marked [] false)) :
    Follows env l signal j m r m' := by
  obtain ⟨o, ho, hp, hruns⟩ := h
  exact ⟨o, ho, hp, rule hruns⟩

/-- A job that fails because another one does. -/
theorem fails {e : EvalError} (h : Follows env l .normal j₁ m₀ (.error e) m')
    (stop : ∀ {o}, Runs env (!l.isEmpty) .normal j₁ (m₀.marked [] false) o (m'.marked [] false) →
      o ≠ .normal → Runs env (!l.isEmpty) .normal j (m.marked [] false) o (m'.marked [] false)) :
    Follows env l .normal j m (.error e) m' := by
  obtain ⟨o, ho, hp, hruns⟩ := h
  refine ⟨o, ho, hp, stop hruns ?_⟩
  rintro rfl
  cases ho

/-- One job after another. The second one does nothing unless the first one ended normally. -/
theorem next (h₁ : Follows env l .normal j₁ m₀ (.ok ()) m₁) (he : Ends env j₂ m₁ r m')
    (hj : j₂.looksFirst = true)
    (h₂ : Pending l .normal m₁.ctx → Follows env l .normal j₂ m₁ r m')
    (stop : ∀ {o}, Runs env (!l.isEmpty) .normal j₁ (m₀.marked [] false) o (m₁.marked [] false) →
      o ≠ .normal → Runs env (!l.isEmpty) .normal j (m.marked [] false) o (m₁.marked [] false))
    (go : ∀ {o}, Runs env (!l.isEmpty) .normal j₁ (m₀.marked [] false) .normal
        (m₁.marked [] false) →
      Runs env (!l.isEmpty) .normal j₂ (m₁.marked [] false) o (m'.marked [] false) →
      Runs env (!l.isEmpty) .normal j (m.marked [] false) o (m'.marked [] false)) :
    Follows env l .normal j m r m' := by
  obtain ⟨o₁, ho₁, hp₁, hruns₁⟩ := h₁
  cases o₁ with
  | normal =>
    obtain ⟨o, ho, hp', hruns₂⟩ := h₂ hp₁
    exact ⟨o, ho, hp', go hruns₁ hruns₂⟩
  | error e => cases ho₁
  | broke | exited =>
    obtain ⟨rfl, rfl⟩ := he.idle hj (hp₁.terminated nofun)
    exact ⟨_, rfl, hp₁, stop hruns₁ nofun⟩

end Follows

/-- The evaluator follows the rules with every part of the job, in particular with what is left of a
    host function when a signal is pending. -/
structure PartsFollow (env : Env) (j : Job) (m : Machine) : Prop where
  part : ∀ {env₁ j₁ m₁ r m₂ l}, Enters env j m env₁ j₁ m₁ → Ends env₁ j₁ m₁ r m₂ →
    Pending l .normal m₁.ctx → Follows env₁ l .normal j₁ m₁ r m₂
  action : ∀ {env₁ name a m₁ r m₂ l signal}, Enters env j m env₁ (.action name a) m₁ →
    Ends env₁ (.action name a) m₁ r m₂ → Pending l signal m₁.ctx →
    Follows env₁ l signal (.action name a) m₁ r m₂

section Follows

variable {r : Except EvalError Unit} {signal : Signal}

theorem follows_block {b : Linked Block} (h : Ends env (.block b) m r m')
    (ih : PartsFollow env (.block b) m) (hp : Pending l .normal m.ctx) :
    Follows env l .normal (.block b) m r m' := by
  cases h with
  | block he =>
    obtain ⟨o, ho, hp', hruns⟩ := ih.part .block he (hp.congr (by simp) (by simp))
    rw [marked_enterBlock] at hruns
    refine ⟨o, ho, hp'.congr (by simp) (by simp), ?_⟩
    rw [marked_leaveBlock]
    exact .block hruns

theorem follows_stmts {program : ProgramId} {ls : List Stmt}
    (h : Ends env (.stmts program ls) m r m') (ih : PartsFollow env (.stmts program ls) m)
    (hp : Pending l .normal m.ctx) : Follows env l .normal (.stmts program ls) m r m' := by
  cases h with
  | stmtsNil => exact .now .stmtsNil hp rfl
  | stmtsStop ht => exact absurd ht (by simp [hp.running])
  | stmtsError ht he =>
    exact (ih.part (.first ht) he (hp.offering _ _)).fails
      fun hruns hne => .stmtsStop (marked_offering .. ▸ hruns) hne
  | stmtsNext ht h₁ h₂ =>
    exact (ih.part (.first ht) h₁ (hp.offering _ _)).next h₂ rfl (ih.part (.rest ht h₁) h₂)
      (fun hruns hne => .stmtsStop (marked_offering .. ▸ hruns) hne)
      fun hruns => .stmtsNext (marked_offering .. ▸ hruns)

theorem follows_breakOut {program : ProgramId} {span : Span} (h : m.breakOut span = (r, m'))
    (hp : Pending l .normal m.ctx) :
    Follows env l .normal (.stmt program (.breakLoop span)) m r m' := by
  have hsame : m'.marked [] false = m.marked [] false := marked_breakOut h
  unfold breakOut at h
  cases l with
  | nil =>
    have hnone := hp.breakLoop_nil
    split at h
    · next heq => rw [heq] at hnone; cases hnone
    · cases h; exact .now .breakOutside hp rfl
  | cons b outer =>
    obtain ⟨hsome, hp'⟩ := hp.breakLoop
    split at h
    · next heq =>
      cases h
      rw [heq] at hp'
      exact ⟨.broke, rfl, hp', by rw [hsame]; exact .breakLoop⟩
    · next heq => rw [heq] at hsome; cases hsome

theorem follows_stmt {program : ProgramId} {s : Stmt} (h : Ends env (.stmt program s) m r m')
    (ih : PartsFollow env (.stmt program s) m) (hp : Pending l .normal m.ctx) :
    Follows env l .normal (.stmt program s) m r m' := by
  cases h with
  | stmtBlock he => exact (ih.part .stmtBlock he hp).like .stmtBlock
  | assign ha =>
    refine ⟨.of r, ?_, ?_, .assign (assign_marked ha)⟩
    · cases r <;> rfl
    · cases r <;> exact hp.of_control (assign_control ha)
  | ifError hc => exact .now (.ifError hc) hp rfl
  | ifTrue hc he => exact (ih.part (.ifTrue hc) he hp).like (.ifTrue hc)
  | ifFalse hc he => exact (ih.part (.ifFalse hc) he hp).like (.ifFalse hc)
  | ifNone hc => exact .now (.ifNone hc) hp rfl
  | stmtWhile he =>
    obtain ⟨o, ho, hp', hruns⟩ := ih.part .stmtWhile he hp.enterLoop
    exact ⟨o.absorbBreak, o.result_absorbBreak.trans ho, hp'.exitLoop hp.whole, .stmtWhile hruns⟩
  | forDestError hd => exact .now (.forDestError hd) hp rfl
  | forSrcError hd hs => exact .now (.forSrcError hd hs) hp rfl
  | stmtFor hd hs he =>
    obtain ⟨o, ho, hp', hruns⟩ := ih.part (.stmtFor hd hs) he hp.enterLoop
    exact ⟨o.absorbBreak, o.result_absorbBreak.trans ho, hp'.exitLoop hp.whole,
      .stmtFor hd hs hruns⟩
  | breakLoop hb => exact follows_breakOut hb hp
  | endCode => exact .now .endCode hp.setExit rfl
  | callError hr =>
    rw [← resolve_ctx hr] at hp
    exact .now (.callError (resolve_marked hr)) hp rfl
  | call hr he =>
    rw [← resolve_ctx hr] at hp
    exact (ih.part (.call hr) he hp).like (.call (resolve_marked hr))
  | moduleCallError hr =>
    rw [← resolveModuleCall_ctx hr] at hp
    exact .now (.moduleCallError (resolveModuleCall_marked hr)) hp rfl
  | moduleCall hr he =>
    rw [← resolveModuleCall_ctx hr] at hp
    exact (ih.part (.moduleCall hr) he hp).like (.moduleCall (resolveModuleCall_marked hr))

theorem follows_whileLoop {condition : Conditions} {body : Linked Block}
    (h : Ends env (.whileLoop condition body) m r m')
    (ih : PartsFollow env (.whileLoop condition body) m) (hp : Pending l .normal m.ctx) :
    Follows env l .normal (.whileLoop condition body) m r m' := by
  cases h with
  | whileStop ht => exact absurd ht (by simp [hp.running])
  | whileError _ hc => exact .now (.whileError hc) hp rfl
  | whileFalse _ hc => exact .now (.whileFalse hc) hp rfl
  | whileBodyError ht hc he => exact (ih.part (.whileBody ht hc) he hp).fails (.whileStop hc)
  | whileNext ht hc h₁ h₂ =>
    exact (ih.part (.whileBody ht hc) h₁ hp).next h₂ rfl (ih.part (.whileNext ht hc h₁) h₂)
      (.whileStop hc) (.whileNext hc)

theorem follows_forLoop {dest : Term} {d s : Value} {body : Linked Block} {span : Span}
    (h : Ends env (.forLoop dest d s body span) m r m')
    (ih : PartsFollow env (.forLoop dest d s body span) m) (hp : Pending l .normal m.ctx) :
    Follows env l .normal (.forLoop dest d s body span) m r m' := by
  cases h with
  | forRange hd hs he => exact (ih.part (.forRange hd hs) he hp).like (.forRange hd hs)
  | forArray hv he => exact (ih.part (.forArray hv) he hp).like (.forArray hv)
  | forSkip hno hskip => exact .now (.forSkip hno hskip) hp rfl

theorem follows_times {count : Nat} {body : Linked Block} (h : Ends env (.times count body) m r m')
    (ih : PartsFollow env (.times count body) m) (hp : Pending l .normal m.ctx) :
    Follows env l .normal (.times count body) m r m' := by
  cases h with
  | timesStop hstop =>
    obtain rfl | ht := hstop
    · exact .now .timesZero hp rfl
    · exact absurd ht (by simp [hp.running])
  | timesError ht he => exact (ih.part (.timesBody ht) he hp).fails .timesStop
  | timesNext ht h₁ h₂ =>
    exact (ih.part (.timesBody ht) h₁ hp).next h₂ rfl (ih.part (.timesNext ht h₁) h₂)
      .timesStop .timesNext

theorem follows_forEach {v : Var} {items : List Value} {body : Linked Block}
    (h : Ends env (.forEach v items body) m r m')
    (ih : PartsFollow env (.forEach v items body) m) (hp : Pending l .normal m.ctx) :
    Follows env l .normal (.forEach v items body) m r m' := by
  have hwrite (value : Value) := hp.of_control (write_control m v value)
  cases h with
  | forEachNil => exact .now .forEachNil hp rfl
  | forEachStop ht => exact absurd ht (by simp [hp.running])
  | forEachError ht he =>
    exact (ih.part (.forEachBody ht) he (hwrite _)).fails
      fun hruns hne => .forEachStop (marked_write .. ▸ hruns) hne
  | forEachNext ht h₁ h₂ =>
    exact (ih.part (.forEachBody ht) h₁ (hwrite _)).next h₂ rfl (ih.part (.forEachNext ht h₁) h₂)
      (fun hruns hne => .forEachStop (marked_write .. ▸ hruns) hne)
      fun hruns => .forEachNext (marked_write .. ▸ hruns)

theorem follows_invoke {callable : Callable} {args : List Expr}
    (h : Ends env (.invoke callable args) m r m') (ih : PartsFollow env (.invoke callable args) m)
    (hp : Pending l .normal m.ctx) : Follows env l .normal (.invoke callable args) m r m' := by
  cases h with
  | invokeScript he => exact (ih.part .invokeScript he hp).like .invokeScript
  | invokeNative he => exact (ih.part .invokeNative he hp).like .invokeNative

theorem follows_script {f : Linked FnDef} {args : List Expr} (h : Ends env (.script f args) m r m')
    (ih : PartsFollow env (.script f args) m) (hw : m.world.Blank) (hp : Pending l .normal m.ctx) :
    Follows env l .normal (.script f args) m r m' := by
  cases h with
  | tooDeep hdeep => exact .now (.tooDeep hdeep) hp rfl
  | badArgument hdeep he => exact .now (.badArgument hdeep he) hp rfl
  | bodyError hdeep he hbody =>
    have hp₀ := Pending.enterCall he hw
    obtain ⟨o, ho, -, hruns⟩ := ih.part (.body hdeep he) hbody hp₀
    rw [hp₀.unmarked] at hruns
    refine ⟨.error _, rfl, hp, ?_⟩
    rw [marked_abandonCall]
    obtain rfl := o.eq_error_of_result ho
    exact .bodyError hdeep he hruns
  | returned hdeep he hbody =>
    have hp₀ := Pending.enterCall he hw
    obtain ⟨o, ho, hp₁, hruns⟩ := ih.part (.body hdeep he) hbody hp₀
    rw [hp₀.unmarked] at hruns
    refine ⟨.normal, rfl, hp.of_control (leaveCall_control _ _ _ _), ?_⟩
    rw [marked_leaveCall]
    refine .returned hdeep he hruns ?_
    cases o with
    | normal => exact .inl rfl
    | exited => exact .inr rfl
    | broke => exact absurd rfl (hp₁.inside rfl)
    | error e => cases ho

theorem follows_action {name : String} {a : Action} (h : Ends env (.action name a) m r m')
    (ih : PartsFollow env (.action name a) m) (ho : Orderly env (.action name a) m)
    (hp : Pending l signal m.ctx) : Follows env l signal (.action name a) m r m' := by
  cases h with
  | done => exact ⟨signal.outcome, by cases signal <;> rfl, by cases signal <;> exact hp, .done⟩
  | fail =>
    obtain rfl := hp.normal_of_running (ho.timely _ _ _ _ .here)
    exact .now .fail hp rfl
  | request ha he =>
    have hn := ho.job.self
    exact (ih.action (.request ha) he (hp.answer hn ha)).like (.request hn (answer?_marked hn ha))
  | run h₁ h₂ =>
    by_cases hs : signal = .normal
    · subst hs
      obtain ⟨o₁, rfl, hp₁, hruns₁⟩ := ih.part .run h₁ hp
      exact (ih.action (.afterRun h₁) h₂ hp₁).like (.run hruns₁)
    · -- the block does nothing
      obtain ⟨rfl, rfl⟩ := h₁.idle rfl (hp.terminated hs)
      exact (ih.action (.afterRun h₁) h₂ hp).like (.runNothing hs)
  | runApart | spawnOk | spawnError => exact ho.job.1.elim

end Follows

/-- In a run that can be compared, what the evaluator does is a run with outcomes. -/
theorem Ends.follows {r : Except EvalError Unit} (h : Ends env j m r m') :
    ∀ l signal, Orderly env j m → Pending l (j.pending signal) m.ctx →
      Follows env l (j.pending signal) j m r m' := by
  refine Ends.by_parts ?_ h
  intro env j m r m' h ih l signal ho hp
  have hparts : PartsFollow env j m := by
    constructor
    · intro env₁ j₁ m₁ r₁ m₂ l he h₁ hp₁
      have hfollows := ih he h₁ l .normal (ho.part he)
      rw [j₁.pending_normal] at hfollows
      exact hfollows hp₁
    · exact fun he h₁ hp₁ => ih he h₁ _ _ (ho.part he) hp₁
  cases j with
  | block => exact follows_block h hparts hp
  | stmts => exact follows_stmts h hparts hp
  | stmt => exact follows_stmt h hparts hp
  | whileLoop => exact follows_whileLoop h hparts hp
  | forLoop => exact follows_forLoop h hparts hp
  | times => exact follows_times h hparts hp
  | forEach => exact follows_forEach h hparts hp
  | invoke => exact follows_invoke h hparts hp
  | script => exact follows_script h hparts ho.blank hp
  | action => exact follows_action h hparts ho hp

/-! ## From outcomes to marks -/

/-- The machine with the marks of a context that is in the loops `l` and on which the signal is
    pending. -/
def signalled (l : List Bool) (signal : Signal) (m : Machine) : Machine :=
  m.marked (signal.loops l) signal.exits

/-- Outside of all loops only a stop is marked. -/
theorem signalled_nil (signal : Signal) (m : Machine) :
    signalled [] signal m = m.marked [] signal.exits := by
  cases signal <;> rfl

theorem Pending.signalled {signal : Signal} {c : Context} (h : Pending l signal c) (m : Machine) :
    Pending l signal (signalled l signal m).ctx := ⟨rfl, rfl, h.whole, h.inside⟩

/-- The evaluator does with a job what a run with outcomes does, in the loops `l` and with the
    signal pending at the start. -/
structure Yields (env : Env) (l : List Bool) (signal : Signal) (j : Job) (m : Machine) (o : Outcome)
    (m' : Machine) : Prop where
  pending : Pending l o.signal (signalled l o.signal m').ctx
  ends : Ends env j (signalled l signal m) o.result (signalled l o.signal m')

namespace Yields

variable {signal signal₁ : Signal} {o : Outcome} {k : Machine → Job}

/-- A job that comes to what another one comes to. -/
theorem like (h : Yields env₁ l signal₁ j₁ m₀ o m')
    (rule : ∀ {r M}, Ends env₁ j₁ (signalled l signal₁ m₀) r M →
      Ends env j (signalled l signal m) r M) : Yields env l signal j m o m' :=
  ⟨h.pending, rule h.ends⟩

/-- One job after another, if the first one does not end normally: it fails, or the second one does
    nothing. -/
theorem stop (h : Yields env l .normal j₁ m₀ o m') (ho : o ≠ .normal)
    (fails : ∀ {e M}, Ends env j₁ (signalled l .normal m₀) (.error e) M →
      Ends env j (signalled l .normal m) (.error e) M)
    (hj : ∀ M, (k M).looksFirst = true)
    (goes : ∀ {M}, Ends env j₁ (signalled l .normal m₀) (.ok ()) M →
      Ends env (k M) M (.ok ()) M → Ends env j (signalled l .normal m) (.ok ()) M) :
    Yields env l .normal j m o m' := by
  refine ⟨h.pending, ?_⟩
  have hends := h.ends
  cases o with
  | normal => exact absurd rfl ho
  | error e => exact fails hends
  | broke | exited => exact goes hends (.of_idle env (hj _) (h.pending.terminated nofun))

end Yields

/-- Leaving a loop turns the marks of its rounds into those of the loop. -/
theorem signalled_exitLoop (m : Machine) (l : List Bool) (o : Outcome) :
    (signalled (false :: l) o.signal m).modifyCtx Context.exitLoop =
      signalled l o.absorbBreak.signal m := by
  cases o <;> rfl

theorem Outcome.signal_absorbBreak (o : Outcome) : o.absorbBreak.signal ≠ .broke := by
  cases o <;> nofun

/-- A loop that the rounds of another job make up. -/
theorem Yields.loop {o : Outcome} (h : Yields env (false :: l) .normal j₁ m o m')
    (hl : l.head? ≠ some true)
    (rule : ∀ {r M}, Ends env j₁ ((signalled l .normal m).modifyCtx Context.enterLoop) r M →
      Ends env j (signalled l .normal m) r (M.modifyCtx Context.exitLoop)) :
    Yields env l .normal j m o.absorbBreak m' := by
  refine ⟨⟨rfl, rfl, hl, fun hb => absurd hb o.signal_absorbBreak⟩, ?_⟩
  rw [o.result_absorbBreak, ← signalled_exitLoop]
  exact rule h.ends

theorem yields_assign {program : ProgramId} {target : Var} {value : Expr} {span : Span}
    {r : Except EvalError Unit} (ha : m.assign target value = (r, m'))
    (hp : Pending l .normal (signalled l .normal m).ctx) :
    Yields env l .normal (.stmt program (.assign target value span)) m (.of r) m' := by
  cases r <;> exact ⟨hp.signalled m', .assign (assign_marked ha)⟩

theorem yields_breakLoop {program : ProgramId} {span : Span} (hi : true = !l.isEmpty)
    (hp : Pending l .normal (signalled l .normal m).ctx) :
    Yields env l .normal (.stmt program (.breakLoop span)) m .broke m := by
  cases l with
  | nil => cases hi
  | cons b outer => exact ⟨⟨rfl, rfl, hp.whole, nofun⟩, .breakLoop rfl⟩

theorem yields_breakOutside {program : ProgramId} {span : Span} (hi : false = !l.isEmpty)
    (hp : Pending l .normal (signalled l .normal m).ctx) :
    Yields env l .normal (.stmt program (.breakLoop span)) m
      (.error (.breakOutsideLoop span)) m := by
  cases l with
  | nil => exact ⟨hp.signalled m, .breakLoop rfl⟩
  | cons b outer => cases hi

theorem signalled_enterBlock (signal : Signal) (b : Linked Block) :
    signalled l signal (m.enterBlock b) = (signalled l signal m).enterBlock b :=
  marked_enterBlock ..

theorem signalled_leaveBlock (signal : Signal) (b : Linked Block) :
    signalled l signal (m.leaveBlock b) = (signalled l signal m).leaveBlock b :=
  marked_leaveBlock ..

theorem signalled_offering (signal : Signal) (program : ProgramId) (rest : List Stmt) :
    signalled l signal (offering program rest m) = offering program rest (signalled l signal m) :=
  marked_offering ..

theorem signalled_write (signal : Signal) (v : Var) (value : Value) :
    signalled l signal (m.write v value) = (signalled l signal m).write v value :=
  marked_write ..

/-- A job that can be compared, started in the loops `l` with the signal pending. -/
structure Ready (env : Env) (l : List Bool) (signal : Signal) (j : Job) (m : Machine) : Prop where
  pending : Pending l signal (signalled l signal m).ctx
  orderly : Orderly env j (signalled l signal m)

namespace Ready

variable {signal : Signal}

theorem running (h : Ready env l .normal j m) :
    (signalled l .normal m).ctx.isTerminated = false := h.pending.running

/-- A part with no more pending than the job. -/
theorem part (h : Ready env l signal j m)
    (he : Enters env j (signalled l signal m) env₁ j₁ (signalled l signal m₁)) :
    Ready env₁ l signal j₁ m₁ := ⟨h.pending.signalled m₁, h.orderly.part he⟩

/-- A part that comes after another one. -/
theorem after {o : Outcome} {m₂ : Machine} (h : Ready env l signal j m)
    (h₁ : Yields env₁ l signal j₁ m₁ o m₂)
    (he : Enters env j (signalled l signal m) env j₂ (signalled l o.signal m₂)) :
    Ready env l o.signal j₂ m₂ := ⟨h₁.pending, h.orderly.part he⟩

theorem block {b : Linked Block} (h : Ready env l .normal (.block b) m) :
    Ready env l .normal (.stmts b.program b.node.stmts) (m.enterBlock b) := by
  refine h.part ?_
  rw [signalled_enterBlock]
  exact .block

theorem first {program : ProgramId} {s : Stmt} {rest : List Stmt}
    (h : Ready env l .normal (.stmts program (s :: rest)) m) :
    Ready env l .normal (.stmt program s) (offering program rest m) := by
  refine h.part ?_
  rw [signalled_offering]
  exact .first h.running

theorem forEachBody {v : Var} {item : Value} {rest : List Value} {body : Linked Block}
    (h : Ready env l .normal (.forEach v (item :: rest) body) m) :
    Ready env l .normal (.block body) (m.write v item) := by
  refine h.part ?_
  rw [signalled_write]
  exact .forEachBody h.running

/-- The rounds of a loop. -/
theorem loop {program : ProgramId} {s : Stmt} (h : Ready env l .normal (.stmt program s) m)
    (he : Enters env (.stmt program s) (signalled l .normal m) env j₁
      ((signalled l .normal m).modifyCtx Context.enterLoop)) :
    Ready env (false :: l) .normal j₁ m :=
  ⟨⟨rfl, rfl, nofun, nofun⟩, h.orderly.part he⟩

/-- The body of a function, which starts in no loop. -/
theorem body {f : Linked FnDef} {args : List Expr} (h : Ready env l .normal (.script f args) m)
    (hdeep : m.ctx.depth + 1 ≤ env.config.maxCallDepth)
    (he : m.enterCall f.node args = (.ok (), m₀)) :
    Ready (env.hold (.ofFunction f)) [] .normal (.block ⟨f.program, f.node.body⟩) m₀ := by
  have hp₀ : Pending [] .normal m₀.ctx := .enterCall he h.orderly.blank
  refine ⟨hp₀.signalled m₀, ?_⟩
  rw [show signalled [] .normal m₀ = m₀ from hp₀.unmarked]
  exact h.orderly.part (.body hdeep he)

end Ready

section Yields

variable {signal : Signal} {o : Outcome}

theorem Yields.block {b : Linked Block}
    (h : Yields env l .normal (.stmts b.program b.node.stmts) (m.enterBlock b) o m') :
    Yields env l .normal (.block b) m o (m'.leaveBlock b) := by
  refine ⟨h.pending.signalled _, ?_⟩
  have hends := h.ends
  rw [signalled_enterBlock] at hends
  rw [signalled_leaveBlock]
  exact .block hends

section Stmts

variable {program : ProgramId} {s : Stmt} {rest : List Stmt}
  (hready : Ready env l .normal (.stmts program (s :: rest)) m)
include hready

theorem Yields.stmtsStop (h : Yields env l .normal (.stmt program s) (offering program rest m) o m')
    (ho : o ≠ .normal) : Yields env l .normal (.stmts program (s :: rest)) m o m' := by
  refine h.stop (k := fun M => .stmts program (remaining rest M)) ho ?_ (fun _ => rfl) ?_
  all_goals rw [signalled_offering]
  · exact .stmtsError hready.running
  · exact .stmtsNext hready.running

theorem Ready.stmtsNext
    (h : Yields env l .normal (.stmt program s) (offering program rest m) .normal m₁) :
    Ready env l .normal (.stmts program (remaining rest m₁)) m₁ := by
  have hends := h.ends
  rw [signalled_offering] at hends
  exact hready.after h (.rest hready.running hends)

theorem Yields.stmtsNext
    (h₁ : Yields env l .normal (.stmt program s) (offering program rest m) .normal m₁)
    (h₂ : Yields env l .normal (.stmts program (remaining rest m₁)) m₁ o m') :
    Yields env l .normal (.stmts program (s :: rest)) m o m' := by
  have hends := h₁.ends
  rw [signalled_offering] at hends
  exact h₂.like (.stmtsNext hready.running hends)

end Stmts

section Items

variable {v : Var} {item : Value} {rest : List Value} {body : Linked Block}
  (hready : Ready env l .normal (.forEach v (item :: rest) body) m)
include hready

theorem Yields.forEachStop (h : Yields env l .normal (.block body) (m.write v item) o m')
    (ho : o ≠ .normal) : Yields env l .normal (.forEach v (item :: rest) body) m o m' := by
  refine h.stop (k := fun _ => .forEach v rest body) ho ?_ (fun _ => rfl) ?_
  all_goals rw [signalled_write]
  · exact .forEachError hready.running
  · exact .forEachNext hready.running

theorem Ready.forEachNext (h : Yields env l .normal (.block body) (m.write v item) .normal m₁) :
    Ready env l .normal (.forEach v rest body) m₁ := by
  have hends := h.ends
  rw [signalled_write] at hends
  exact hready.after h (.forEachNext hready.running hends)

theorem Yields.forEachNext (h₁ : Yields env l .normal (.block body) (m.write v item) .normal m₁)
    (h₂ : Yields env l .normal (.forEach v rest body) m₁ o m') :
    Yields env l .normal (.forEach v (item :: rest) body) m o m' := by
  have hends := h₁.ends
  rw [signalled_write] at hends
  exact h₂.like (.forEachNext hready.running hends)

end Items

section Calls

variable {f : Linked FnDef} {args : List Expr} (hready : Ready env l .normal (.script f args) m)
  (he : m.enterCall f.node args = (.ok (), m₀))
include hready he

/-- What the evaluator does with the body of a function. -/
theorem Yields.ends_body
    (h : Yields (env.hold (.ofFunction f)) [] .normal (.block ⟨f.program, f.node.body⟩) m₀ o m₁) :
    Ends (env.hold (.ofFunction f)) (.block ⟨f.program, f.node.body⟩) m₀ o.result
      (m₁.marked [] o.signal.exits) := by
  have hp₀ : Pending [] .normal m₀.ctx := .enterCall he hready.orderly.blank
  have hends := h.ends
  rw [show signalled [] .normal m₀ = m₀ from hp₀.unmarked] at hends
  rwa [signalled_nil] at hends

theorem Yields.bodyError {e : EvalError} (hdeep : m.ctx.depth + 1 ≤ env.config.maxCallDepth)
    (h : Yields (env.hold (.ofFunction f)) [] .normal (.block ⟨f.program, f.node.body⟩) m₀
      (.error e) m₁) :
    Yields env l .normal (.script f args) m (.error e) (m₁.abandonCall m.ctx) := by
  refine ⟨hready.pending.signalled _, ?_⟩
  show Ends env (.script f args) (signalled l .normal m) (.error e)
    ((m₁.marked [] false).abandonCall (signalled l .normal m).ctx)
  exact .bodyError hdeep he (h.ends_body hready he)

theorem Yields.returned (hdeep : m.ctx.depth + 1 ≤ env.config.maxCallDepth)
    (h : Yields (env.hold (.ofFunction f)) [] .normal (.block ⟨f.program, f.node.body⟩) m₀ o m₁)
    (ho : o = .normal ∨ o = .exited) :
    Yields env l .normal (.script f args) m .normal (m₁.leaveCall m.ctx f.node args) := by
  refine ⟨hready.pending.signalled _, ?_⟩
  have hends := h.ends_body hready he
  have hok : o.result = .ok () := by obtain rfl | rfl := ho <;> rfl
  rw [hok] at hends
  have hleave : signalled l .normal (m₁.leaveCall m.ctx f.node args) =
      (m₁.marked [] o.signal.exits).leaveCall (signalled l .normal m).ctx f.node args :=
    marked_leaveCall ..
  show Ends env (.script f args) (signalled l .normal m) (.ok ())
    (signalled l .normal (m₁.leaveCall m.ctx f.node args))
  rw [hleave]
  exact .returned hdeep he hends

end Calls

section Requests

variable {name : String}

theorem yields_done (hready : Ready env l signal (.action name .done) m) :
    Yields env l signal (.action name .done) m signal.outcome m := by
  cases signal <;> exact ⟨hready.pending, .done⟩

/-- Nothing is pending when a host function fails. -/
theorem yields_fail {cause : Cause} (hready : Ready env l signal (.action name (.fail cause)) m) :
    Yields env l signal (.action name (.fail cause)) m (.error (.native name cause)) m := by
  obtain rfl := hready.pending.normal_of_running (hready.orderly.timely _ _ _ _ .here)
  exact ⟨hready.pending, .fail⟩

variable {b : Linked Block} {next : Except EvalError Unit → Action}
  (hready : Ready env l signal (.action name (.run b next)) m) (hs : signal ≠ .normal)
include hready hs

/-- With a signal pending, a block does nothing. -/
theorem Ready.ends_idle : Ends (env.hold (.ofBlock b)) (.block b) (signalled l signal m) (.ok ())
    (signalled l signal m) :=
  .of_idle _ rfl (hready.pending.terminated hs)

theorem Ready.runNothing : Ready env l signal (.action name (next (.ok ()))) m :=
  hready.part (.afterRun (hready.ends_idle hs))

theorem Yields.runNothing (h : Yields env l signal (.action name (next (.ok ()))) m o m') :
    Yields env l signal (.action name (.run b next)) m o m' :=
  h.like (.run (hready.ends_idle hs))

end Requests

end Yields

/-- Every run with outcomes that can be compared is what the evaluator does. -/
theorem Runs.ends {inLoop : Bool} {signal : Signal} {o : Outcome}
    (h : Runs env inLoop signal j m o m') {l : List Bool} (hi : inLoop = !l.isEmpty)
    (ho : Ready env l signal j m) : Yields env l signal j m o m' := by
  induction h generalizing l with
  | block _ ih => exact (ih hi ho.block).block
  | stmtsNil => exact ⟨ho.pending, .stmtsNil⟩
  | stmtsStop _ hne ih => exact (ih hi ho.first).stmtsStop ho hne
  | stmtsNext _ _ ih₁ ih₂ =>
    have h₁ := ih₁ hi ho.first
    exact h₁.stmtsNext ho (ih₂ hi (ho.stmtsNext h₁))
  | stmtBlock _ ih => exact (ih hi (ho.part .stmtBlock)).like .stmtBlock
  | assign ha => exact yields_assign ha ho.pending
  | ifError hc => exact ⟨ho.pending, .ifError hc⟩
  | ifTrue hc _ ih => exact (ih hi (ho.part (.ifTrue hc))).like (.ifTrue hc)
  | ifFalse hc _ ih => exact (ih hi (ho.part (.ifFalse hc))).like (.ifFalse hc)
  | ifNone hc => exact ⟨ho.pending, .ifNone hc⟩
  | stmtWhile _ ih => exact (ih rfl (ho.loop .stmtWhile)).loop ho.pending.whole .stmtWhile
  | forDestError hd => exact ⟨ho.pending, .forDestError hd⟩
  | forSrcError hd hs => exact ⟨ho.pending, .forSrcError hd hs⟩
  | stmtFor hd hs _ ih =>
    exact (ih rfl (ho.loop (.stmtFor hd hs))).loop ho.pending.whole (.stmtFor hd hs)
  | breakLoop => exact yields_breakLoop hi ho.pending
  | breakOutside => exact yields_breakOutside hi ho.pending
  | endCode => exact ⟨⟨rfl, rfl, ho.pending.whole, nofun⟩, .endCode⟩
  | callError hr => exact ⟨ho.pending.signalled _, .callError (resolve_marked hr)⟩
  | call hr _ ih =>
    exact (ih hi (ho.part (.call (resolve_marked hr)))).like (.call (resolve_marked hr))
  | moduleCallError hr =>
    exact ⟨ho.pending.signalled _, .moduleCallError (resolveModuleCall_marked hr)⟩
  | moduleCall hr _ ih =>
    exact (ih hi (ho.part (.moduleCall (resolveModuleCall_marked hr)))).like
      (.moduleCall (resolveModuleCall_marked hr))
  | whileError hc => exact ⟨ho.pending, .whileError ho.running hc⟩
  | whileFalse hc => exact ⟨ho.pending, .whileFalse ho.running hc⟩
  | whileStop hc _ hne ih =>
    exact (ih hi (ho.part (.whileBody ho.running hc))).stop hne (.whileBodyError ho.running hc)
      (fun _ => rfl) (.whileNext ho.running hc)
  | whileNext hc _ _ ih₁ ih₂ =>
    have h₁ := ih₁ hi (ho.part (.whileBody ho.running hc))
    have h₂ := ih₂ hi (ho.after h₁ (.whileNext ho.running hc h₁.ends))
    exact h₂.like (.whileNext ho.running hc h₁.ends)
  | forRange hd hs _ ih => exact (ih hi (ho.part (.forRange hd hs))).like (.forRange hd hs)
  | forArray hv _ ih => exact (ih hi (ho.part (.forArray hv))).like (.forArray hv)
  | forSkip hno hskip => exact ⟨ho.pending.signalled _, .forSkip hno hskip⟩
  | timesZero => exact ⟨ho.pending, .timesStop (.inl rfl)⟩
  | timesStop _ hne ih =>
    exact (ih hi (ho.part (.timesBody ho.running))).stop hne (.timesError ho.running)
      (fun _ => rfl) (.timesNext ho.running)
  | timesNext _ _ ih₁ ih₂ =>
    have h₁ := ih₁ hi (ho.part (.timesBody ho.running))
    have h₂ := ih₂ hi (ho.after h₁ (.timesNext ho.running h₁.ends))
    exact h₂.like (.timesNext ho.running h₁.ends)
  | forEachNil => exact ⟨ho.pending, .forEachNil⟩
  | forEachStop _ hne ih => exact (ih hi ho.forEachBody).forEachStop ho hne
  | forEachNext _ _ ih₁ ih₂ =>
    have h₁ := ih₁ hi ho.forEachBody
    exact h₁.forEachNext ho (ih₂ hi (ho.forEachNext h₁))
  | invokeScript _ ih => exact (ih hi (ho.part .invokeScript)).like .invokeScript
  | invokeNative _ ih => exact (ih hi (ho.part .invokeNative)).like .invokeNative
  | tooDeep hdeep => exact ⟨ho.pending, .tooDeep hdeep⟩
  | badArgument hdeep he => exact ⟨ho.pending.signalled _, .badArgument hdeep he⟩
  | bodyError hdeep he _ ih => exact (ih rfl (ho.body hdeep he)).bodyError ho he hdeep
  | returned hdeep he _ hend ih => exact (ih rfl (ho.body hdeep he)).returned ho he hdeep hend
  | done => exact yields_done ho
  | fail => exact yields_fail ho
  | request hn ha _ ih =>
    exact (ih hi (ho.part (.request (answer?_marked hn ha)))).like
      (.request (answer?_marked hn ha))
  | run _ _ ih₁ ih₂ =>
    have h₁ := ih₁ hi (ho.part .run)
    have h₂ := ih₂ hi (ho.after h₁ (.afterRun h₁.ends))
    exact h₂.like (.run h₁.ends)
  | runNothing hs _ ih => exact (ih hi (ho.runNothing hs)).runNothing ho hs

/-! ## Whole programs -/

theorem Outcome.exits_iff (o : Outcome) : o.signal.exits = true ↔ o = .exited := by
  cases o with
  | exited => exact iff_of_true rfl rfl
  | normal | broke | error => exact iff_of_false Bool.false_ne_true nofun

theorem Pending.exits_iff {o : Outcome} {c : Context} (h : Pending l o.signal c) :
    c.earlyExit = true ↔ o = .exited := by
  rw [h.exits]
  exact o.exits_iff

theorem Pending.no_loops {signal : Signal} {c : Context} (h : Pending [] signal c) :
    c.loops = [] := by
  rw [h.loops]
  cases signal <;> rfl

/-- A machine that is in no loop, and stopped if the outcome is an exit, has the marks of that
    outcome. -/
theorem signalled_unmarked {o : Outcome} (hl : m.ctx.loops = [])
    (he : m.ctx.earlyExit = true ↔ o = .exited) :
    signalled [] o.signal (m.marked [] false) = m := by
  have hexits : o.signal.exits = m.ctx.earlyExit :=
    Bool.eq_iff_iff.mpr (o.exits_iff.trans he.symm)
  rw [signalled_nil, marked_marked, hexits, ← hl, marked_self]

/-- A program that starts in no loop and not stopped, and in which no host function fails too late,
    ends with a result and a machine if and only if it does so with structured control flow; and it
    leaves the context stopped if and only if the outcome there is an exit. -/
theorem marks_refine_outcomes {p : Linked Block} (hn : env.registry.Every Neutral)
    (hw : m.world.Blank) (hloops : m.ctx.loops = []) (hexit : m.ctx.earlyExit = false)
    (hlate : NoLateFailure env (.block p) (begun p m)) (r : Except EvalError Unit) (m' : Machine) :
    (∃ fuel, program env fuel p m = some (r, m')) ↔
      ∃ o, Runs env false .normal (.block p) (begun p m) o (m'.marked [] false) ∧ o.result = r ∧
        m'.ctx.loops = [] ∧ (m'.ctx.earlyExit = true ↔ o = .exited) := by
  have hp : Pending [] .normal (begun p m).ctx := ⟨hloops, hexit, nofun, nofun⟩
  have ho : Orderly env (.block p) (begun p m) := ⟨hn, trivial, hw, hlate⟩
  have hstart : signalled [] .normal (begun p m) = begun p m := hp.unmarked
  have hends : (∃ fuel, program env fuel p m = some (r, m')) ↔
      Ends env (.block p) (begun p m) r m' := (ends_iff (j := .block p)).symm
  rw [hends]
  constructor
  · intro h
    obtain ⟨o, hr, hp', hruns⟩ := h.follows [] .normal ho hp
    rw [hp.unmarked] at hruns
    exact ⟨o, hruns, hr, hp'.no_loops, hp'.exits_iff⟩
  · rintro ⟨o, hruns, rfl, hl, he⟩
    have hready : Ready env [] .normal (.block p) (begun p m) :=
      ⟨hp.signalled _, hstart.symm ▸ ho⟩
    have hyields := (hruns.ends rfl hready).ends
    rwa [hstart, signalled_unmarked hl he] at hyields

/-- A request that is no failure. -/
def neverFails : Action → Prop
  | .fail _ => False
  | _ => True

/-- Host functions that never fail do not fail too late. -/
theorem noLateFailure_of_every (hr : env.registry.Every neverFails) (hj : j.Every neverFails) :
    NoLateFailure env j m :=
  fun _ _ _ _ h => (h.every hr hj).elim

/-- An environment with one host function. -/
def withHost (c : Callable) : Env := { registry := ({ generation := 1 } : Registry).register 2 c }

theorem withHost_every {c : Callable} {p : Action → Prop} (h : c.Every p) :
    (withHost c).registry.Every p := by
  intro c' hc
  obtain rfl : c' = c := by
    simpa [withHost, Registry.callables, Registry.register] using hc
  exact h

/-- A machine on which nothing has run yet. -/
def unused : Machine := ⟨{ session := 1, store := 0 }, {}⟩

theorem unused_blank : unused.world.Blank := nofun

/-- A host function that runs the block after the call twice, whatever comes of it. -/
def doubling : Callable :=
  .native "twice" (.exact 0) fun _ => Tool.withBlock fun b => .run b fun _ => .run b fun _ => .done

/-- What holds of claiming, running a block and coming to an end holds of the whole function. -/
theorem doubling_every {p : Action → Prop} (hclaim : ∀ next, p (.claim next))
    (hrun : ∀ b next, p (.run b next)) (hdone : p .done) : doubling.Every p := by
  refine fun _ => ⟨hclaim _, fun b => ?_⟩
  cases b with
  | none => exact hdone
  | some b => exact ⟨hrun _ _, fun _ => ⟨hrun _ _, fun _ => hdone⟩⟩

/-- A block that is run twice breaks the loop around the call, and then the program exits before a
    break without a loop. -/
theorem marks_refine_outcomes_doubling :
    let always : Conditions :=
      ⟨[⟨.single ⟨.bool true, false, false, .first⟩, none, .first⟩], [], .first⟩
    let body : Block :=
      ⟨[.call ⟨"twice", [], .first⟩, .block ⟨[.breakLoop .first], [], .first⟩], [], .first⟩
    let p : Linked Block :=
      ⟨1, ⟨[.whileLoop always body .first, .endCode .first, .breakLoop .first], [], .first⟩⟩
    ∃ m', Runs (withHost doubling) false .normal (.block p) (begun p unused) .exited m' := by
  intro always body p
  have hrun : ∃ m', program (withHost doubling) 20 p unused = some (.ok (), m') ∧
      m'.ctx.earlyExit = true := ⟨_, rfl, rfl⟩
  obtain ⟨m', hm', hexit⟩ := hrun
  have hneutral : (withHost doubling).registry.Every Neutral :=
    withHost_every (doubling_every (fun _ => trivial) (fun _ _ => trivial) trivial)
  have hfails : (withHost doubling).registry.Every neverFails :=
    withHost_every (doubling_every (fun _ => trivial) (fun _ _ => trivial) trivial)
  obtain ⟨o, hruns, -, -, ho⟩ :=
    (marks_refine_outcomes hneutral unused_blank rfl rfl (noLateFailure_of_every hfails trivial)
      (.ok ()) m').mp ⟨20, hm'⟩
  obtain rfl := ho.mp hexit
  exact ⟨_, hruns⟩

/-! ## Where marks and outcomes differ -/

/-- A host function that runs the block after the call and then fails. -/
def failing : Callable :=
  .native "late" (.exact 0) fun _ => Tool.withBlock fun b => .run b fun _ => Tool.complain "late"

theorem failing_neutral : failing.Every Neutral := by
  refine fun _ => ⟨trivial, fun b => ?_⟩
  cases b with
  | none => trivial
  | some b => exact ⟨trivial, fun _ => trivial⟩

/-- The block that runs before the failure exits. -/
def exitThenFail : Source := .ofString "p" "late() { endcode }"

/-- An environment that can keep a block and run it later. -/
def keeping : Env where
  registry := ((({ generation := 1 } : Registry).register 2 Tool.print.callable).register 3
    Tool.keep.callable).register 4 Tool.kept.callable

/-- A block with a break is kept where no loop is, and runs within one. -/
def keptBreak : Source := .ofString "p" "keep()\n{ break }\nwhile (true) { kept() }\nprint(1)"

/-- A host function that fails after its block has exited leaves an error and a stopped context,
    which is no outcome. And a block that was kept breaks the loop around the call that runs it,
    though no loop is around the block. -/
theorem marks_differ_from_outcomes :
    (¬ ∀ env m p r m', env.registry.Every Neutral → m.world.Blank → m.ctx.loops = [] →
      m.ctx.earlyExit = false →
      ((∃ fuel, program env fuel p m = some (r, m')) ↔
        ∃ o, Runs env false .normal (.block p) (begun p m) o (m'.marked [] false) ∧ o.result = r ∧
          m'.ctx.loops = [] ∧ (m'.ctx.earlyExit = true ↔ o = .exited))) ∧
    (∃ b e m', parse exitThenFail = .ok b ∧
      program (withHost failing) 20 ⟨1, b⟩ unused = some (.error e, m') ∧
        m'.ctx.earlyExit = true) ∧
    ∃ b m', parse keptBreak = .ok b ∧
      program keeping 40 ⟨1, b⟩ unused = some (.ok (), m') ∧
      m'.world.output = ["1"] := by
  have hlate : ∃ b e m', parse exitThenFail = .ok b ∧
      program (withHost failing) 20 ⟨1, b⟩ unused = some (.error e, m') ∧
        m'.ctx.earlyExit = true := by
    have htest : (parse exitThenFail).toOption.any (fun b =>
        (program (withHost failing) 20 ⟨1, b⟩ unused).any fun x =>
          !x.1.toBool && x.2.ctx.earlyExit) = true := by
      decide +kernel
    obtain ⟨b, hb, hany⟩ := exists_ok_of_any htest
    obtain ⟨⟨r, m'⟩, hrun, hend⟩ := (Option.any_eq_true _ _).mp hany
    rw [Bool.and_eq_true] at hend
    cases r with
    | ok => cases hend.1
    | error e => exact ⟨b, e, m', hb, hrun, hend.2⟩
  refine ⟨fun hall => ?_, hlate, ?_⟩
  · obtain ⟨b, e, m', -, hrun, hexit⟩ := hlate
    have hneutral : (withHost failing).registry.Every Neutral := withHost_every failing_neutral
    obtain ⟨o, -, ho, -, hiff⟩ := (hall _ _ _ _ _ hneutral unused_blank rfl rfl).mp ⟨20, hrun⟩
    obtain rfl := hiff.mp hexit
    cases ho
  · have htest : (parse keptBreak).toOption.any (fun b =>
        (program keeping 40 ⟨1, b⟩ unused).any fun x =>
          x.1.toBool && x.2.world.output == ["1"]) = true := by
      decide +kernel
    obtain ⟨b, hb, hany⟩ := exists_ok_of_any htest
    obtain ⟨⟨r, m'⟩, hrun, hend⟩ := (Option.any_eq_true _ _).mp hany
    rw [Bool.and_eq_true] at hend
    cases r with
    | error e => cases hend.1
    | ok => exact ⟨b, m', hb, hrun, eq_of_beq hend.2⟩

end Eval

end TierScript
