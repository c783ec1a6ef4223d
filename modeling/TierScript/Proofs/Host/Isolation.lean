import TierScript.Proofs.Host.Preparation
import TierScript.Proofs.Host.Views

/-!
# Sessions do not interfere

Evaluations of different sessions share interpreters, the contexts of their pools, parsed programs
and what the calls in them remember. None of that lets a session notice another one, as long as
programs read no global variables, host functions keep to the context they are given, and no session
is forgotten.

* `Workspace.evaluateAll`: evaluations one after another, each with its result and what it printed.
* `Alike`: workspaces that differ in one session only, as far as evaluations of others can tell. An
  evaluation of that session in one of the two keeps them alike (`Orderly.unnoticed`), and so does
  one of another session in both, with the same outcome (`Alike.evaluate`).
* `sessions_isolated`: without the evaluations of one session, all others have the same outcomes,
  and leave the same session variables and the same contexts behind.
-/

namespace TierScript

/-- What an evaluation gives: its answer, and the lines that it has printed. -/
structure Outcome where
  answer : Answer
  output : List String

/-! ## Where an evaluation starts and ends -/

namespace Evaluation

variable {ws : Workspace} {i : Interpreter} {m : Machine} (e : Evaluation)

theorem finish_stores : (e.finish ws i m).world.stores = m.world.stores := by
  unfold finish
  split <;> rfl

theorem finish_output : (e.finish ws i m).world.output = m.world.output := by
  unfold finish
  split <;> rfl

theorem finish_interpreters : (e.finish ws i m).interpreters = ws.interpreters := by
  unfold finish
  split <;> rfl

theorem finish_programs : (e.finish ws i m).programs = ws.programs := by
  unfold finish
  split <;> rfl

theorem finish_registries : (e.finish ws i m).registries = ws.registries := by
  unfold finish
  split <;> rfl

/-- An evaluation on a context with a name leaves a context there, and no other one changes. -/
theorem finish_contexts (name : String) :
    (e.finish ws i m).contexts.lookup name =
      if e.context = some name then some m.ctx else ws.contexts.lookup name := by
  unfold finish
  cases e.context with
  | none => rfl
  | some context =>
    show ((context, m.ctx) :: ws.contexts.filter fun x => x.1 != context).lookup name = _
    by_cases heq : name = context
    · rw [heq, List.lookup_cons_self, if_pos rfl]
    · rw [List.lookup_cons, beq_eq_false_iff_ne.mpr heq,
        if_neg fun h => heq (Option.some.inj h).symm]
      exact lookup_filter_ne ws.contexts heq

/-- An evaluation of a program is allowed. -/
theorem allowed {programs : List (Linked Block)} (hp : e.program ∈ programs) :
    e.request.Allowed programs := by
  unfold request
  split <;> exact hp

theorem sparesContexts_request : ws.sparesContexts e.request = true := by
  unfold request
  split <;> rfl

end Evaluation

namespace Workspace

/-- The session of an evaluation: that of its context, or else that of its interpreter. -/
def sessionOf (ws : Workspace) (e : Evaluation) : Option SessionId :=
  match e.context with
  | some name => (ws.contexts.lookup name).map Context.session
  | none => (ws.interpreters.lookup e.interpreter).map Interpreter.session

variable {lib : Library} {ws ws' ws₁ : Workspace} {e : Evaluation} {o : Outcome} {i : Interpreter}
  {env : Env} {m m' m₁ m₁' : Machine} {session hidden : SessionId}

theorem sessionOf_start (h : e.start ws = some (i, env, m)) :
    ws.sessionOf e = some m.ctx.session := by
  obtain ⟨interpreter, program, context⟩ := e
  obtain ⟨i, hi, hs⟩ := Option.bind_eq_some_iff.mp h
  cases context with
  | some name =>
    obtain ⟨c, hc, hs⟩ := Option.map_eq_some_iff.mp hs
    cases hs
    exact congrArg (Option.map Context.session) hc
  | none =>
    cases hs
    have hsession : (Eval.begun program (ws.taken i)).ctx.session = i.session :=
      (ws.worldOf i).obtain_session i.session
    rw [hsession]
    exact congrArg (Option.map Interpreter.session) hi

/-- The machine on which an evaluation starts, in a workspace whose variables and output it
    finds. -/
structure Opens (ws : Workspace) (m : Machine) : Prop where
  sound : m.Sound
  apart : m.world.stores.Apart
  vars : ∀ session, m.world.stores.varsOf session = ws.world.stores.varsOf session
  output : m.world.output = ws.world.output

theorem Orderly.opens (h : ws.Orderly lib) (hs : e.start ws = some (i, env, m)) : Opens ws m := by
  have hstarts := Evaluation.starts hs
  suffices hworld : (∀ session, m.world.stores.varsOf session = ws.world.stores.varsOf session) ∧
      m.world.output = ws.world.output from
    ⟨h.sound.starts hstarts, (h.backed.starts hstarts).2.apart, hworld.1, hworld.2⟩
  obtain ⟨interpreter, program, context⟩ := e
  obtain ⟨i, hi, hs⟩ := Option.bind_eq_some_iff.mp hs
  cases context with
  | some name =>
    obtain ⟨c, hc, hs⟩ := Option.map_eq_some_iff.mp hs
    cases hs
    exact ⟨fun _ => rfl, rfl⟩
  | none =>
    cases hs
    have hnew := (h.sound.fresh.worldOf i).likeNew i.session
    have hstores : (Eval.begun program (ws.taken i)).world.stores =
        (ws.world.stores.obtain i.session).2 := (Prod.mk.inj hnew).2
    exact ⟨fun session => by rw [hstores, Stores.varsOf_obtain], rfl⟩

/-- After a run the context still uses the variables that its session has. -/
theorem current_after {j : Eval.Job} {r : Except EvalError Unit} (h : m.Sound)
    (he : Eval.Ends env j m r m') : m'.ctx.Current m'.world.stores := by
  have hext := (he.onward h.fresh).2
  rw [Context.Current, he.restores.1.session, he.restores.1.store]
  exact h.current.mono hext

/-- What an evaluation shows of the machine that it starts on. -/
theorem Opens.view (h : Opens ws m) :
    m.view = ⟨{ m.ctx with store := 0 }, ws.world.stores.varsOf m.ctx.session,
      ws.world.output⟩ := by
  rw [Machine.view, h.output, ← h.vars, Stores.Has.varsOf h.sound.current]

/-- After an evaluation its session has the variables that the machine shows, and all other sessions
    have those that they had before. -/
theorem Opens.varsOf_after (h : Opens ws m) {j : Eval.Job} {r : Except EvalError Unit}
    (he : Eval.Ends env j m r m') (session : SessionId) :
    m'.world.stores.varsOf session =
      if session = m.ctx.session then m'.view.vars else ws.world.stores.varsOf session := by
  split
  · next heq =>
    rw [heq, ← he.restores.1.session]
    exact Stores.Has.varsOf (current_after h.sound he)
  · next hne =>
    rw [(he.confined h.sound).varsOf h.apart h.sound.current hne, h.vars]

/-- An evaluation without a context of its own starts on a new one. -/
theorem Orderly.taken_ctx (h : ws.Orderly lib) (i : Interpreter) :
    { (ws.taken i).ctx with store := 0 } = ({ session := i.session, store := 0 } : Context) := by
  have hnew := (h.sound.fresh.worldOf i).likeNew i.session
  have hctx : (ws.taken i).ctx = _ := (Prod.mk.inj hnew).1
  rw [hctx]

/-! ## Evaluations one after another -/

/-- Evaluates a program; what was printed before is taken away first. -/
def evaluate (ws : Workspace) (e : Evaluation) : Option (Outcome × Workspace) :=
  (ws.drain.2.2.serve e.request).map fun (answer, ws) => (⟨answer, ws.drain.1⟩, ws)

/-- Evaluates programs one after another. -/
def evaluateAll (ws : Workspace) : List Evaluation → Option (List Outcome × Workspace)
  | [] => some ([], ws)
  | e :: es =>
    match ws.evaluate e with
    | none => none
    | some (o, ws) => (ws.evaluateAll es).map fun (os, ws) => (o :: os, ws)

/-- Evaluations that have ended: the first one has, and then the others. -/
theorem evaluateAll_cons {es : List Evaluation} {os : List Outcome}
    (h : ws.evaluateAll (e :: es) = some (os, ws₁)) :
    ∃ o os' ws₂, ws.evaluate e = some (o, ws₂) ∧ ws₂.evaluateAll es = some (os', ws₁) ∧
      os = o :: os' := by
  rw [evaluateAll] at h
  cases hev : ws.evaluate e with
  | none => rw [hev] at h; cases h
  | some first =>
    rw [hev] at h
    obtain ⟨⟨os', ws₃⟩, hrest, heq⟩ := Option.map_eq_some_iff.mp h
    cases heq
    exact ⟨first.1, os', first.2, rfl, hrest, rfl⟩

/-- What an evaluation can do. -/
theorem evaluate_cases (h : ws.evaluate e = some (o, ws₁)) :
    (e.start ws.drain.2.2 = none ∧ o = ⟨.unknown, []⟩ ∧ ws₁ = ws.drain.2.2) ∨
      ∃ i env m r m₁, e.start ws.drain.2.2 = some (i, env, m) ∧
        Eval.block env fuel e.program m = some (r, m₁) ∧
        o = ⟨.ended r, m₁.world.output.reverse⟩ ∧ ws₁ = e.finish ws.drain.2.2 i m₁ := by
  obtain ⟨⟨a, ws₂⟩, hserve, heq⟩ := Option.map_eq_some_iff.mp h
  rw [Evaluation.serve_eq] at hserve
  split at hserve
  · next hstart =>
    cases hserve
    cases heq
    exact .inl ⟨hstart, rfl, rfl⟩
  · next i env m hstart =>
    obtain ⟨⟨r, m₁⟩, hrun, hend⟩ := Option.map_eq_some_iff.mp hserve
    cases hend
    cases heq
    refine .inr ⟨i, env, m, r, m₁, hstart, hrun, ?_, rfl⟩
    rw [← e.finish_output]
    rfl

theorem evaluate_of_start (hstart : e.start ws.drain.2.2 = some (i, env, m))
    {r : Except EvalError Unit} (hrun : Eval.block env fuel e.program m = some (r, m₁)) :
    ws.evaluate e =
      some (⟨.ended r, m₁.world.output.reverse⟩, e.finish ws.drain.2.2 i m₁) := by
  rw [evaluate, Evaluation.serve_eq, hstart]
  dsimp only
  rw [hrun, ← e.finish_output]
  rfl

theorem evaluate_of_unknown (hstart : e.start ws.drain.2.2 = none) :
    ws.evaluate e = some (⟨.unknown, []⟩, ws.drain.2.2) := by
  rw [evaluate, Evaluation.serve_eq, hstart]
  rfl

theorem Orderly.drained (h : ws.Orderly lib) : ws.drain.2.2.Orderly lib :=
  h.serve (r := .drain) trivial rfl rfl

theorem Orderly.evaluate (h : ws.Orderly lib) (hp : e.program ∈ lib.programs)
    (hev : ws.evaluate e = some (o, ws₁)) : ws₁.Orderly lib := by
  obtain ⟨⟨a, ws₂⟩, hserve, heq⟩ := Option.map_eq_some_iff.mp hev
  cases heq
  exact h.drained.serve (e.allowed hp) e.sparesContexts_request hserve

theorem Orderly.evaluateAll (h : ws.Orderly lib) {es : List Evaluation}
    (hes : ∀ e ∈ es, e.program ∈ lib.programs) {os : List Outcome}
    (hrun : ws.evaluateAll es = some (os, ws₁)) : ws₁.Orderly lib := by
  induction es generalizing ws os with
  | nil => cases hrun; exact h
  | cons e es ih =>
    obtain ⟨hp, hes⟩ := List.forall_mem_cons.mp hes
    obtain ⟨o, os', ws₂, hev, hrest, rfl⟩ := evaluateAll_cons hrun
    exact ih (h.evaluate hp hev) hes hrest

/-- A context with a name uses the variables that its session has. -/
theorem Orderly.table_eq (h : ws.Orderly lib) {name : String} {c : Context}
    (hc : ws.contexts.lookup name = some c) :
    ws.world.stores.table c.store = ws.world.stores.varsOf c.session :=
  (Stores.Has.varsOf (h.sound.current _ (mem_of_lookup hc))).symm

/-- Evaluations move no context to another session. -/
theorem sessionOf_evaluate (hev : ws.evaluate e = some (o, ws₁)) :
    ws₁.sessionOf = ws.sessionOf := by
  rcases evaluate_cases hev with ⟨-, -, rfl⟩ | ⟨i, env, m, r, m₁, hstart, hrun, -, rfl⟩
  · rfl
  · have hsession := sessionOf_start hstart
    have hkept := (Eval.Ends.of_block hrun).restores.1.session
    funext e'
    unfold sessionOf
    rw [e.finish_interpreters]
    cases e'.context with
    | none => rfl
    | some name =>
      dsimp only
      rw [e.finish_contexts]
      split
      · next hname =>
        rw [sessionOf, hname] at hsession
        rw [Option.map_some, hkept]
        exact hsession.symm
      · rfl

end Workspace

/-! ## Workspaces that differ in one session -/

/-- What evaluations of other sessions can tell of a context: nothing if it is of the hidden
    session, and else all but the number of its set of session variables. -/
def Context.seen (hidden : SessionId) (c : Context) : Context :=
  if c.session = hidden then { session := hidden, store := 0 } else { c with store := 0 }

/-- The workspaces differ in the hidden session only: in its variables and in its contexts. They may
    also differ in the numbers of sets, the idle contexts, what calls remember, the global variables
    and what was printed. -/
structure Alike (hidden : SessionId) (ws ws' : Workspace) : Prop where
  interpreters : ws.interpreters = ws'.interpreters
  programs : ws.programs = ws'.programs
  registries : ws.registries = ws'.registries
  contexts : ∀ name, (ws.contexts.lookup name).map (Context.seen hidden) =
    (ws'.contexts.lookup name).map (Context.seen hidden)
  vars : ∀ session, session ≠ hidden →
    ws.world.stores.varsOf session = ws'.world.stores.varsOf session

theorem Context.seen_eq {hidden : SessionId} {c c' : Context}
    (h : { c with store := 0 } = { c' with store := 0 }) : c.seen hidden = c'.seen hidden := by
  have hsession : c.session = c'.session := (Context.mk.inj h).1
  unfold Context.seen
  rw [h, hsession]

theorem Context.eq_of_seen {hidden : SessionId} {c c' : Context}
    (h : c.seen hidden = c'.seen hidden) (hc : c.session ≠ hidden) :
    { c with store := 0 } = { c' with store := 0 } := by
  unfold Context.seen at h
  rw [if_neg hc] at h
  split at h
  · exact absurd (congrArg Context.session h) hc
  · exact h

namespace Alike

open Workspace

variable {lib : Library} {ws ws' ws₁ ws₂ : Workspace} {e : Evaluation} {o : Outcome}
  {i : Interpreter} {env : Env} {m m' m₁ m₁' : Machine} {hidden : SessionId}

theorem refl (hidden : SessionId) (ws : Workspace) : Alike hidden ws ws :=
  ⟨rfl, rfl, rfl, fun _ => rfl, fun _ _ => rfl⟩

theorem symm (h : Alike hidden ws ws') : Alike hidden ws' ws where
  interpreters := h.interpreters.symm
  programs := h.programs.symm
  registries := h.registries.symm
  contexts name := (h.contexts name).symm
  vars session hne := (h.vars session hne).symm

theorem trans (h : Alike hidden ws ws₁) (h' : Alike hidden ws₁ ws₂) : Alike hidden ws ws₂ where
  interpreters := h.interpreters.trans h'.interpreters
  programs := h.programs.trans h'.programs
  registries := h.registries.trans h'.registries
  contexts name := (h.contexts name).trans (h'.contexts name)
  vars session hne := (h.vars session hne).trans (h'.vars session hne)

theorem drained (ws : Workspace) : Alike hidden ws.drain.2.2 ws :=
  ⟨rfl, rfl, rfl, fun _ => rfl, fun _ _ => rfl⟩

theorem env_eq (h : Alike hidden ws ws') (i : Interpreter) (extra : List ProgramId) :
    ws.env i extra = ws'.env i extra := by
  unfold Workspace.env Workspace.registry
  rw [h.registries, h.programs]

/-- Contexts of other sessions are the same, but for the numbers of their sets. -/
theorem context (h : Alike hidden ws ws') {name : String} {c : Context}
    (hc : ws.contexts.lookup name = some c) (hne : c.session ≠ hidden) :
    ∃ c', ws'.contexts.lookup name = some c' ∧ { c with store := 0 } = { c' with store := 0 } := by
  have hseen := h.contexts name
  rw [hc] at hseen
  obtain ⟨c', hc', heq⟩ := Option.map_eq_some_iff.mp hseen.symm
  exact ⟨c', hc', Context.eq_of_seen heq.symm hne⟩

theorem context_none (h : Alike hidden ws ws') {name : String}
    (hc : ws.contexts.lookup name = none) : ws'.contexts.lookup name = none := by
  have hseen := h.contexts name
  rw [hc] at hseen
  exact Option.map_eq_none_iff.mp hseen.symm

/-- In workspaces that are alike, and have the same output, an evaluation of another session starts
    on machines with the same view. -/
theorem start (h : Alike hidden ws ws') (ho : ws.Orderly lib) (ho' : ws'.Orderly lib)
    (hout : ws.world.output = ws'.world.output) (hne : ws.sessionOf e ≠ some hidden)
    (hs : e.start ws = some (i, env, m)) :
    ∃ m', e.start ws' = some (i, env, m') ∧ m.view = m'.view := by
  -- it is enough that the contexts are the same
  have hview {m' : Machine} (hs' : e.start ws' = some (i, env, m'))
      (hctx : { m.ctx with store := 0 } = { m'.ctx with store := 0 }) : m.view = m'.view := by
    have hsession : m.ctx.session = m'.ctx.session := (Context.mk.inj hctx).1
    have hother : m.ctx.session ≠ hidden := fun heq => hne (heq ▸ sessionOf_start hs)
    rw [(ho.opens hs).view, (ho'.opens hs').view, h.vars _ hother, hctx, hsession, hout]
  have hinterpreters := h.interpreters
  obtain ⟨interpreter, program, context⟩ := e
  obtain ⟨i, hi, hs₀⟩ := Option.bind_eq_some_iff.mp hs
  cases context with
  | some name =>
    obtain ⟨c, hc, heq⟩ := Option.map_eq_some_iff.mp hs₀
    cases heq
    have hother : c.session ≠ hidden := fun heq => hne (heq ▸ sessionOf_start hs)
    obtain ⟨c', hc', hctx⟩ := h.context hc hother
    have hs' : Evaluation.start ⟨interpreter, program, some name⟩ ws' =
        some (i, ws.env i [], Eval.begun program ⟨c', ws'.worldOf i⟩) := by
      rw [Evaluation.start, ← h.interpreters, hi, h.env_eq]
      dsimp only [Option.bind_some]
      rw [hc']
      rfl
    exact ⟨_, hs', hview hs' hctx⟩
  | none =>
    cases hs₀
    have hs' : Evaluation.start ⟨interpreter, program, none⟩ ws' =
        some (i, ws.env i [program.program], Eval.begun program (ws'.taken i)) := by
      rw [Evaluation.start, ← h.interpreters, hi, h.env_eq]
      rfl
    exact ⟨_, hs', hview hs' ((ho.taken_ctx i).trans (ho'.taken_ctx i).symm)⟩

theorem start_none (h : Alike hidden ws ws') (hs : e.start ws = none) : e.start ws' = none := by
  unfold Evaluation.start at hs ⊢
  rw [← h.interpreters]
  cases hi : ws.interpreters.lookup e.interpreter with
  | none => rfl
  | some i =>
    rw [hi] at hs
    cases hcontext : e.context with
    | none => rw [hcontext] at hs; cases hs
    | some name =>
      rw [hcontext] at hs
      have hnone := h.context_none (Option.map_eq_none_iff.mp hs)
      exact Option.map_eq_none_iff.mpr hnone

/-- When evaluations of the same other session have ended on machines with the same view, the
    workspaces are still alike. -/
theorem finish (h : Alike hidden ws ws') (ho : Opens ws m) (ho' : Opens ws' m')
    {r r' : Except EvalError Unit} {j : Eval.Job} (he : Eval.Ends env j m r m₁)
    (he' : Eval.Ends env j m' r' m₁') (hview : m₁.view = m₁'.view) :
    Alike hidden (e.finish ws i m₁) (e.finish ws' i m₁') where
  interpreters := by rw [e.finish_interpreters, e.finish_interpreters, h.interpreters]
  programs := by rw [e.finish_programs, e.finish_programs, h.programs]
  registries := by rw [e.finish_registries, e.finish_registries, h.registries]
  contexts name := by
    rw [e.finish_contexts, e.finish_contexts]
    split
    · exact congrArg some (Context.seen_eq (congrArg View.ctx hview))
    · exact h.contexts name
  vars session hne := by
    have hctx : m₁.ctx.session = m₁'.ctx.session :=
      congrArg (fun view : View => view.ctx.session) hview
    rw [he.restores.1.session, he'.restores.1.session] at hctx
    rw [e.finish_stores, e.finish_stores, ho.varsOf_after he, ho'.varsOf_after he', hview,
      hctx, h.vars session hne]

/-- An evaluation of another session has the same outcome in workspaces that are alike, and they
    stay alike. -/
theorem evaluate (h : Alike hidden ws ws') (ho : ws.Orderly lib) (ho' : ws'.Orderly lib)
    (hp : e.program ∈ lib.programs) (hne : ws.sessionOf e ≠ some hidden)
    (hev : ws.evaluate e = some (o, ws₁)) :
    ∃ ws₁', ws'.evaluate e = some (o, ws₁') ∧ Alike hidden ws₁ ws₁' := by
  have hdrained : Alike hidden ws.drain.2.2 ws'.drain.2.2 :=
    ((drained ws).trans h).trans ((drained ws').symm)
  rcases evaluate_cases hev with ⟨hstart, rfl, rfl⟩ | ⟨i, env, m, r, m₁, hstart, hrun, rfl, rfl⟩
  · exact ⟨_, evaluate_of_unknown (hdrained.start_none hstart), hdrained⟩
  · obtain ⟨m', hstart', hview⟩ := hdrained.start ho.drained ho'.drained rfl hne hstart
    have hsettled := ho.drained.settled (e.allowed hp) (Evaluation.starts hstart)
    have hsettled' := ho'.drained.settled (e.allowed hp) (Evaluation.starts hstart')
    have hmeet := Eval.lockstep hsettled hsettled' hview fuel
    rw [Eval.Job.run, Eval.Job.run, hrun] at hmeet
    generalize hright : Eval.block env fuel e.program m' = answer at hmeet
    cases hmeet with
    | @answered _ _ m₁' hafter =>
      have houtput : m₁.world.output = m₁'.world.output := congrArg View.output hafter
      refine ⟨_, houtput ▸ evaluate_of_start hstart' hright, ?_⟩
      exact hdrained.finish (ho.drained.opens hstart) (ho'.drained.opens hstart')
        (.of_block hrun) (.of_block hright) hafter

/-- An evaluation of the hidden session in one workspace goes unnoticed. -/
theorem unnoticed (ho : ws.Orderly lib) (hhidden : ws.sessionOf e = some hidden)
    (hev : ws.evaluate e = some (o, ws₁)) : Alike hidden ws₁ ws := by
  rcases evaluate_cases hev with ⟨-, -, rfl⟩ | ⟨i, env, m, r, m₁, hstart, hrun, -, rfl⟩
  · exact drained ws
  · have hends : Eval.Ends env (.block e.program) m r m₁ := .of_block hrun
    have hsession : m.ctx.session = hidden :=
      Option.some.inj ((sessionOf_start hstart).symm.trans hhidden)
    have hafter : m₁.ctx.session = hidden := hends.restores.1.session.trans hsession
    refine ⟨e.finish_interpreters, e.finish_programs, e.finish_registries, ?_, ?_⟩
    · intro name
      rw [e.finish_contexts]
      split
      · next hname =>
        rw [sessionOf, hname] at hhidden
        obtain ⟨c, hc, hsession⟩ := Option.map_eq_some_iff.mp hhidden
        rw [hc, Option.map_some, Option.map_some, Context.seen, Context.seen, if_pos hafter,
          if_pos hsession]
      · rfl
    · intro session hne
      rw [e.finish_stores, (ho.drained.opens hstart).varsOf_after hends,
        if_neg (hsession.symm ▸ hne)]
      rfl

/-- Evaluations in one workspace, and those of them that are not of the hidden session in the
    other. -/
theorem evaluateAll (h : Alike hidden ws ws') (ho : ws.Orderly lib) (ho' : ws'.Orderly lib)
    {es : List Evaluation} (hes : ∀ e ∈ es, e.program ∈ lib.programs) {os : List Outcome}
    (hrun : ws.evaluateAll es = some (os, ws₁)) :
    ∃ ws₁', ws'.evaluateAll (es.filter fun e => ws.sessionOf e ≠ some hidden) =
        some (((es.zip os).filter fun x => ws.sessionOf x.1 ≠ some hidden).map Prod.snd, ws₁') ∧
      Alike hidden ws₁ ws₁' := by
  induction es generalizing ws ws' os with
  | nil =>
    cases hrun
    exact ⟨ws', rfl, h⟩
  | cons e es ih =>
    obtain ⟨hp, hes⟩ := List.forall_mem_cons.mp hes
    obtain ⟨o, os', ws₂, hev, hrest, rfl⟩ := evaluateAll_cons hrun
    have ho₂ := ho.evaluate hp hev
    -- which evaluations are left out is the same after each of them
    have hsessions := sessionOf_evaluate hev
    by_cases hhidden : ws.sessionOf e = some hidden
    · obtain ⟨ws₁', hrun', hafter⟩ := ih ((unnoticed ho hhidden hev).trans h) ho₂ ho' hes hrest
      refine ⟨ws₁', ?_, hafter⟩
      rw [hsessions] at hrun'
      rw [List.filter_cons_of_neg (by simpa using hhidden), List.zip_cons_cons,
        List.filter_cons_of_neg (by simpa using hhidden)]
      exact hrun'
    · obtain ⟨ws₂', hev', hlike⟩ := h.evaluate ho ho' hp hhidden hev
      obtain ⟨ws₁', hrun', hafter⟩ := ih hlike ho₂ (ho'.evaluate hp hev') hes hrest
      refine ⟨ws₁', ?_, hafter⟩
      rw [hsessions] at hrun'
      rw [List.filter_cons_of_pos (by simpa using hhidden), List.zip_cons_cons,
        List.filter_cons_of_pos (by simpa using hhidden), Workspace.evaluateAll, hev']
      dsimp only
      rw [hrun']
      rfl

end Alike

/-! ## Sessions -/

/-- In a prepared workspace programs are evaluated one after another, by any interpreters and on any
    contexts. Without the evaluations of session `B`, all others have the same results and print the
    same, and another session `A` has the same variables in the end. Its contexts are the same too,
    but for the numbers of their sets of session variables, and these sets hold the same. -/
theorem sessions_isolated {programs : List (Linked Block)} {ws ws₁ : Workspace}
    (h : Prepared programs ws) {es : List Evaluation} (hes : ∀ e ∈ es, e.program ∈ programs)
    {os : List Outcome} (hrun : ws.evaluateAll es = some (os, ws₁)) {A B : SessionId}
    (hne : A ≠ B) :
    ∃ ws₂, ws.evaluateAll (es.filter fun e => ws.sessionOf e ≠ some B) =
        some (((es.zip os).filter fun x => ws.sessionOf x.1 ≠ some B).map Prod.snd, ws₂) ∧
      ws₁.world.stores.varsOf A = ws₂.world.stores.varsOf A ∧
      ∀ name c₁, ws₁.contexts.lookup name = some c₁ → c₁.session = A →
        ∃ c₂, ws₂.contexts.lookup name = some c₂ ∧ c₁ = { c₂ with store := c₁.store } ∧
          ws₁.world.stores.table c₁.store = ws₂.world.stores.table c₂.store := by
  obtain ⟨lib, rfl, ho⟩ := h.orderly
  obtain ⟨ws₂, hrun', hlike⟩ := (Alike.refl B ws).evaluateAll ho ho hes hrun
  have hvars := hlike.vars A hne
  refine ⟨ws₂, hrun', hvars, ?_⟩
  intro name c₁ hc₁ hsession
  obtain ⟨c₂, hc₂, heq⟩ := hlike.context hc₁ (hsession ▸ hne)
  have hsession₂ : c₂.session = A := (Context.mk.inj heq).1.symm.trans hsession
  have hes' : ∀ e ∈ es.filter fun e => ws.sessionOf e ≠ some B, e.program ∈ lib.programs :=
    fun e he => hes e (List.mem_filter.mp he).1
  refine ⟨c₂, hc₂, congrArg (fun c : Context => { c with store := c₁.store }) heq, ?_⟩
  rw [(ho.evaluateAll hes hrun).table_eq hc₁, (ho.evaluateAll hes' hrun').table_eq hc₂, hsession,
    hsession₂, hvars]

/-! ## Two sessions in turn -/

/-- An interpreter of session 1, and a context of session 1 and one of session 2. -/
def twoContexts : List Request :=
  [.addInterpreter "main" 1 {}, .register "main" Tool.print.callable,
    .register "main" Tool.twice.callable, .newContext "a" 1, .newContext "b" 2]

/-- Prints a session variable and a variable of the context before it sets them, one of them in a
    function and both in a block that a host function runs. -/
def printThenSet : Source := .ofString "p"
  "print(ss.x, s.y) step() twice() \x7b ss.x = 5 s.y = 7 \x7d fn step() ss.x = 3 end fn"

/-- The same program on both contexts in turn, and once on a context from the pool. -/
def inTurn (p : Linked Block) : List Evaluation :=
  [⟨"main", p, some "a"⟩, ⟨"main", p, some "b"⟩, ⟨"main", p, none⟩, ⟨"main", p, some "b"⟩,
    ⟨"main", p, some "a"⟩]

theorem twoContexts_allowed : ∀ r ∈ twoContexts, r.Allowed [] := by
  have hprint := Tool.from_print []
  have htwice := Tool.from_twice []
  simp [twoContexts, Request.Allowed, hprint, htwice]

/-- Session 1 finds what it has set before, and not what session 2 has set in between. -/
theorem sessions_isolated_inTurn :
    ∃ p ws os ws₁ os' ws₂, Prepared [p] ws ∧ (∀ e ∈ inTurn p, e.program ∈ [p]) ∧
      ws.evaluateAll (inTurn p) = some (os, ws₁) ∧ (1 : SessionId) ≠ 2 ∧
      os.map Outcome.output = [["null,null"], ["null,null"], ["5,null"], ["5,7"], ["5,7"]] ∧
      ws.evaluateAll ((inTurn p).filter fun e => ws.sessionOf e ≠ some 2) = some (os', ws₂) ∧
      os'.map Outcome.output = [["null,null"], ["5,null"], ["5,7"]] ∧
      ws₁.world.stores.varsOf 1 = ws₂.world.stores.varsOf 1 := by
  have hrule : Workspace.keepsTo Workspace.sparesContexts {} twoContexts = true := by
    decide +kernel
  have htest : (({} : Workspace).serveAll twoContexts).any (fun a =>
      (a.2.load printThenSet).1.toOption.any fun p =>
        let ws := (a.2.load printThenSet).2
        decide (Spared p.node.reads) &&
        (ws.evaluateAll (inTurn p)).any fun run =>
          run.1.map Outcome.output =
            [["null,null"], ["null,null"], ["5,null"], ["5,7"], ["5,7"]] ∧
          ((((inTurn p).zip run.1).filter fun x => ws.sessionOf x.1 ≠ some 2).map Prod.snd).map
            Outcome.output = [["null,null"], ["5,null"], ["5,7"]]) = true := by
    decide +kernel
  obtain ⟨⟨answers, ws₀⟩, hserved, hany⟩ := (Option.any_eq_true _ _).mp htest
  dsimp only at hany
  generalize hload : ws₀.load printThenSet = loaded at hany
  obtain ⟨result, ws⟩ := loaded
  obtain ⟨p, rfl, hany⟩ := exists_ok_of_any hany
  obtain ⟨hspared, hany⟩ := Bool.and_eq_true_iff.mp hany
  obtain ⟨⟨os, ws₁⟩, hrun, houtputs⟩ := (Option.any_eq_true _ _).mp hany
  obtain ⟨hall, hkept⟩ := of_decide_eq_true houtputs
  have hset : Prepared [] ws₀ := Prepared.empty.serveAll twoContexts_allowed hrule hserved
  have hprepared := hset.load hload (of_decide_eq_true hspared)
  have hes : ∀ e ∈ inTurn p, e.program ∈ [p] := by simp [inTurn]
  have hne : (1 : SessionId) ≠ 2 := by decide
  obtain ⟨ws₂, hrun', hvars, -⟩ := sessions_isolated hprepared hes hrun hne
  exact ⟨p, ws, os, ws₁, _, ws₂, hprepared, hes, hrun, hne, hall, hrun', hkept, hvars⟩

end TierScript
