import TierScript.Host.Workspace
import TierScript.Proofs.Run.Pooling

/-!
# What a host asks of a workspace

A host works with a workspace by requests, one after another.

* `Workspace.serve`, `Workspace.serveAll`: the answer to a request, and to a list of them.
* `Workspace.Starts`, `Workspace.Serves`: what runs while a request is served, and what serving it
  makes of the workspace. All that later modules say about requests is read off `serves_of_serve`.
* `Workspace.Does`: what that is for the pools, the sessions and the contexts. There are four such
  things only, so that an invariant has four cases and not one for each request.
* `keepsTo_induction`, `serveAll_induction`: what every request keeps holds after a list of them.
-/

namespace TierScript

/-! ## Requests -/

/-- Something that a workspace can be asked to do. Interpreters and contexts are known by their
    names. -/
inductive Request where
  | addInterpreter (name : String) (session : SessionId) (config : Config)
  | cloneInterpreter (interpreter name : String)
  | dropInterpreter (name : String)
  | register (interpreter : String) (c : Callable)
  | registerModule (interpreter : String) (m : Module)
  | load (name : String) (source : Source)
  | dropProgram (name : String) (emptyDrawer : Bool)
  | eval (interpreter : String) (p : Linked Block)
  | evalText (interpreter : String) (text : List Char)
  | evalWith (interpreter : String) (p : Linked Block) (context : String)
  | spawn (interpreter : String) (b : Linked Block) (context : String)
  | invoke (interpreter : String) (callable : Callable) (args : List Expr) (context : String)
  | newContext (name : String) (session : SessionId)
  | derive (context name : String)
  /-- Changes anything about a context but its session. -/
  | adjust (context : String) (f : Context → Context)
  | read (context : String) (v : Var)
  | write (context : String) (v : Var) (value : Value)
  /-- Changes the variables that a session has now, and looks at them. -/
  | sessionVars (session : SessionId) (f : Vars → Vars)
  | globalVars (f : Vars → Vars)
  | clearSession (session : SessionId)
  | drain

/-- The answer to a request. -/
inductive Answer where
  | done
  /-- There is nothing under a name of the request. -/
  | unknown
  | ended (result : Except EvalError Unit)
  | refused (d : Diagnostic)
  | value (v : Value)
  | variables (vars : Vars)
  | cleared (existed : Bool)
  | drained (output : List String) (log : List Event)

namespace Workspace

/-- Serves a request that is about a thing with a name. -/
def ask {α : Type} (ws : Workspace) (things : Named α) (name : String)
    (f : α → Option (Answer × Workspace)) : Option (Answer × Workspace) :=
  match things.lookup name with
  | some a => f a
  | none => some (.unknown, ws)

/-- Serves a request. There is no answer if an evaluation does not end. -/
def serve (ws : Workspace) : Request → Option (Answer × Workspace)
  | .addInterpreter name session config => some (.done, ws.addInterpreter name session config)
  | .cloneInterpreter interpreter name =>
    ws.ask ws.interpreters interpreter fun i => some (.done, ws.cloneInterpreter i name)
  | .dropInterpreter name => some (.done, ws.dropInterpreter name)
  | .register interpreter c =>
    ws.ask ws.interpreters interpreter fun i =>
      some (.ended (ws.register i c).1, (ws.register i c).2)
  | .registerModule interpreter m =>
    ws.ask ws.interpreters interpreter fun i =>
      some (.ended (ws.registerModule i m).1, (ws.registerModule i m).2)
  | .load name source =>
    match ws.load source with
    | (.error d, ws) => some (.refused d, ws)
    | (.ok p, ws) => some (.done, ws.addProgram name p)
  | .dropProgram name emptyDrawer => some (.done, ws.dropProgram name emptyDrawer)
  | .eval interpreter p =>
    ws.ask ws.interpreters interpreter fun i =>
      (ws.eval i p).map fun (r, ws) => (.ended r, ws)
  | .evalText interpreter text =>
    ws.ask ws.interpreters interpreter fun i =>
      (ws.evalText i text).map fun (r, ws) => (.ended r, ws)
  | .evalWith interpreter p context =>
    ws.ask ws.interpreters interpreter fun i => ws.ask ws.contexts context fun c =>
      (ws.evalWith i p c).map fun (r, c, ws) => (.ended r, ws.setContext context c)
  | .spawn interpreter b context =>
    ws.ask ws.interpreters interpreter fun i => ws.ask ws.contexts context fun c =>
      (ws.spawn i b c).map fun ws => (.done, ws)
  | .invoke interpreter callable args context =>
    ws.ask ws.interpreters interpreter fun i => ws.ask ws.contexts context fun c =>
      (ws.invoke i callable args c).map fun (r, c, ws) => (.ended r, ws.setContext context c)
  | .newContext name session =>
    some (.done, (ws.newContext session).2.setContext name (ws.newContext session).1)
  | .derive context name =>
    ws.ask ws.contexts context fun c => some (.done, ws.setContext name c.derive)
  | .adjust context f =>
    ws.ask ws.contexts context fun c =>
      some (.done, ws.setContext context { f c with session := c.session, store := c.store })
  | .read context v =>
    ws.ask ws.contexts context fun c => some (.value (c.read ws.world.stores v), ws)
  | .write context v value =>
    ws.ask ws.contexts context fun c =>
      some (.done, (ws.write c v value).2.setContext context (ws.write c v value).1)
  | .sessionVars session f =>
    let (id, ws) := ws.sessionVars session
    let stores := ws.world.stores.update id f
    some (.variables (stores.table id), { ws with world := { ws.world with stores } })
  | .globalVars f =>
    let stores := { ws.world.stores with global := f ws.world.stores.global }
    some (.variables stores.global, { ws with world := { ws.world with stores } })
  | .clearSession session =>
    some (.cleared (ws.clearSession session).1, (ws.clearSession session).2)
  | .drain => some (.drained ws.drain.1 ws.drain.2.1, ws.drain.2.2)

/-- Serves requests one after another. -/
def serveAll (ws : Workspace) : List Request → Option (List Answer × Workspace)
  | [] => some ([], ws)
  | r :: rs =>
    match ws.serve r with
    | none => none
    | some (a, ws) => (ws.serveAll rs).map fun (answers, ws) => (a :: answers, ws)

/-- What was printed before the last request, if that takes the output. -/
def printed (answer : Option (List Answer × Workspace)) : List String :=
  match answer.bind fun a => a.1.getLast? with
  | some (.drained output _) => output
  | _ => []

/-! ## What runs while a request is served -/

/-- The machine on which an interpreter runs a program of its own: a context from its pool. -/
def taken (ws : Workspace) (i : Interpreter) : Machine :=
  ⟨((ws.worldOf i).obtain i.session).1, ((ws.worldOf i).obtain i.session).2⟩

/-- What runs while a request is served. -/
inductive Starts (ws : Workspace) : Request → Env → Eval.Job → Machine → Prop where
  | eval {interpreter i p} :
      ws.interpreters.lookup interpreter = some i →
      Starts ws (.eval interpreter p) (ws.env i [p.program]) (.block p)
        (Eval.begun p (ws.taken i))
  | evalText {interpreter i text b} :
      ws.interpreters.lookup interpreter = some i → parse ⟨i.config.fileName, text⟩ = .ok b →
      Starts ws (.evalText interpreter text) (ws.env i [ws.fresh]) (.block ⟨ws.fresh, b⟩)
        (Eval.begun ⟨ws.fresh, b⟩ (ws.taken i))
  | evalWith {interpreter i p context c} :
      ws.interpreters.lookup interpreter = some i → ws.contexts.lookup context = some c →
      Starts ws (.evalWith interpreter p context) (ws.env i []) (.block p)
        (Eval.begun p ⟨c, ws.worldOf i⟩)
  | spawn {interpreter i b context c} :
      ws.interpreters.lookup interpreter = some i → ws.contexts.lookup context = some c →
      Starts ws (.spawn interpreter b context) ((ws.env i []).hold (.ofBlock b)) (.block b)
        (Eval.taskMachine ⟨c, ws.worldOf i⟩)
  | invokeScript {interpreter i f args context c} :
      ws.interpreters.lookup interpreter = some i → ws.contexts.lookup context = some c →
      Starts ws (.invoke interpreter (.script f) args context) (ws.env i []) (.script f args)
        ⟨c, ws.worldOf i⟩
  | invokeNative {interpreter i name arity body args context c} :
      ws.interpreters.lookup interpreter = some i → ws.contexts.lookup context = some c →
      Starts ws (.invoke interpreter (.native name arity body) args context) (ws.env i [])
        (.action name (body args)) ⟨c, ws.worldOf i⟩

/-! ## What serving a request does -/

/-- Between the two worlds at most one event was logged. -/
inductive Noted (w : World) : World → Prop where
  | still : Noted w w
  | note (e : Event) : Noted w (w.note e)

/-- The workspace with other variables. -/
def withStores (ws : Workspace) (stores : Stores) : Workspace :=
  { ws with world := { ws.world with stores } }

/-- What serving a request makes of the workspace. What runs may do so in three ways: on a context
    from the pool, on a context with a name, or apart from all contexts that there are. -/
inductive Serves (ws : Workspace) : Request → Workspace → Prop where
  /-- Something is only looked at, or there is no such thing. -/
  | nothing {r} : Serves ws r ws
  | addInterpreter {name session config} :
      Serves ws (.addInterpreter name session config) (ws.addInterpreter name session config)
  | cloneInterpreter {interpreter name i} :
      ws.interpreters.lookup interpreter = some i →
      Serves ws (.cloneInterpreter interpreter name) (ws.cloneInterpreter i name)
  | dropInterpreter {name} : Serves ws (.dropInterpreter name) (ws.dropInterpreter name)
  | register {interpreter c i} :
      ws.interpreters.lookup interpreter = some i →
      Serves ws (.register interpreter c) (ws.register i c).2
  | registerModule {interpreter m i} :
      ws.interpreters.lookup interpreter = some i →
      Serves ws (.registerModule interpreter m) (ws.registerModule i m).2
  | load {name source b} :
      parse source = .ok b →
      Serves ws (.load name source)
        ({ ws with fresh := ws.fresh + 1 }.addProgram name ⟨ws.fresh, b⟩)
  | dropProgram {name emptyDrawer} :
      Serves ws (.dropProgram name emptyDrawer) (ws.dropProgram name emptyDrawer)
  | newContext {name session} :
      Serves ws (.newContext name session)
        ((ws.newContext session).2.setContext name (ws.newContext session).1)
  | derive {context name c} :
      ws.contexts.lookup context = some c →
      Serves ws (.derive context name) (ws.setContext name c.derive)
  | adjust {context f c} :
      ws.contexts.lookup context = some c →
      Serves ws (.adjust context f)
        (ws.setContext context { f c with session := c.session, store := c.store })
  | write {context v value c} :
      ws.contexts.lookup context = some c →
      Serves ws (.write context v value)
        ((ws.write c v value).2.setContext context (ws.write c v value).1)
  | sessionVars {session f} :
      Serves ws (.sessionVars session f)
        (ws.withStores
          ((ws.world.stores.obtain session).2.update (ws.world.stores.obtain session).1 f))
  | globalVars {f} :
      Serves ws (.globalVars f)
        (ws.withStores { ws.world.stores with global := f ws.world.stores.global })
  | clearSession {session} : Serves ws (.clearSession session) (ws.clearSession session).2
  | drain : Serves ws .drain ws.drain.2.2
  | ranPooled {r env i p result m fresh} :
      Starts ws r env (.block p) (Eval.begun p (ws.taken i)) → env.registry = ws.registry i →
      Eval.Ends env (.block p) (Eval.begun p (ws.taken i)) result m → ws.fresh ≤ fresh →
      Serves ws r { ws.adopt i (m.world.release m.ctx) with fresh }
  | ranOn {r env i j context c w result m} :
      Starts ws r env j ⟨c, w⟩ → env.registry = ws.registry i → Noted (ws.worldOf i) w →
      ws.contexts.lookup context = some c → Eval.Ends env j ⟨c, w⟩ result m →
      Serves ws r ((ws.adopt i m.world).setContext context m.ctx)
  | ranApart {r env i j c result m w} :
      Starts ws r env j (Eval.taskMachine ⟨c, ws.worldOf i⟩) → env.registry = ws.registry i →
      Eval.Ends env j (Eval.taskMachine ⟨c, ws.worldOf i⟩) result m → Noted m.world w →
      Serves ws r (ws.adopt i w)

section Inversion

variable {ws ws' : Workspace} {i : Interpreter} {r : Request}

/-- A request about something with a name does nothing if there is no such thing. -/
theorem serves_of_ask {α : Type} {things : Named α} {name : String}
    {f : α → Option (Answer × Workspace)} {a : Answer} (h : ws.ask things name f = some (a, ws'))
    (hf : ∀ x, things.lookup name = some x → f x = some (a, ws') → Serves ws r ws') :
    Serves ws r ws' := by
  unfold ask at h
  split at h
  · next x hx => exact hf x hx h
  · cases h; exact .nothing

theorem serves_of_evalText {interpreter : String} {text : List Char}
    {result : Except EvalError Unit} (hi : ws.interpreters.lookup interpreter = some i)
    (h : ws.evalText i text = some (result, ws')) :
    Serves ws (.evalText interpreter text) ws' := by
  unfold Workspace.evalText Workspace.load at h
  cases hp : parse ⟨i.config.fileName, text⟩ with
  | error d =>
    rw [hp] at h
    cases h
    exact .nothing
  | ok b =>
    rw [hp] at h
    obtain ⟨⟨result, w⟩, hrun, heq⟩ := Option.map_eq_some_iff.mp h
    cases heq
    obtain ⟨m, hends, rfl⟩ := Eval.ends_of_pooled hrun
    exact .ranPooled (.evalText hi hp) rfl hends (Nat.le_succ _)

theorem serves_of_spawn {interpreter context : String} {b : Linked Block} {c : Context}
    (hi : ws.interpreters.lookup interpreter = some i)
    (hc : ws.contexts.lookup context = some c) (h : ws.spawn i b c = some ws') :
    Serves ws (.spawn interpreter b context) ws' := by
  obtain ⟨m, htask, rfl⟩ := Option.map_eq_some_iff.mp h
  obtain ⟨result, apart, hends, -, hworld⟩ := Eval.ends_of_task htask
  have hnoted : Noted apart.world m.world := by
    rcases hworld with hworld | ⟨e, hworld⟩
    · exact hworld ▸ .still
    · exact hworld ▸ .note e
  exact .ranApart (.spawn hi hc) rfl hends hnoted

theorem serves_of_invoke {interpreter context : String} {callable : Callable} {args : List Expr}
    {c c' : Context} {result : Except EvalError Unit}
    (hi : ws.interpreters.lookup interpreter = some i)
    (hc : ws.contexts.lookup context = some c)
    (h : ws.invoke i callable args c = some (result, c', ws')) :
    Serves ws (.invoke interpreter callable args context) (ws'.setContext context c') := by
  unfold Workspace.invoke at h
  cases callable with
  | script f =>
    obtain ⟨⟨result, m⟩, hrun, heq⟩ := Option.map_eq_some_iff.mp h
    cases heq
    exact .ranOn (.invokeScript hi hc) rfl .still hc (.of_script hrun)
  | native name arity body =>
    obtain ⟨⟨result, m⟩, hrun, heq⟩ := Option.map_eq_some_iff.mp h
    have hends := Eval.Ends.of_action name hrun
    rcases result with (e | s) | ⟨⟨⟩⟩ <;> cases heq <;>
      exact .ranOn (.invokeNative hi hc) rfl .still hc hends

theorem serves_of_serve {a : Answer} (h : ws.serve r = some (a, ws')) : Serves ws r ws' := by
  cases r with
  | addInterpreter => cases h; exact .addInterpreter
  | cloneInterpreter =>
    refine serves_of_ask h fun i hi h => ?_
    cases h
    exact .cloneInterpreter hi
  | dropInterpreter => cases h; exact .dropInterpreter
  | register =>
    refine serves_of_ask h fun i hi h => ?_
    cases h
    exact .register hi
  | registerModule =>
    refine serves_of_ask h fun i hi h => ?_
    cases h
    exact .registerModule hi
  | load name source =>
    rw [serve, Workspace.load] at h
    cases hp : parse source with
    | error d => rw [hp] at h; cases h; exact .nothing
    | ok b => rw [hp] at h; cases h; exact .load hp
  | dropProgram => cases h; exact .dropProgram
  | eval interpreter p =>
    refine serves_of_ask h fun i hi h => ?_
    obtain ⟨⟨result, ws'⟩, heval, heq⟩ := Option.map_eq_some_iff.mp h
    cases heq
    obtain ⟨⟨result, w⟩, hrun, heq⟩ := Option.map_eq_some_iff.mp heval
    cases heq
    obtain ⟨m, hends, rfl⟩ := Eval.ends_of_pooled hrun
    exact .ranPooled (.eval hi) rfl hends (Nat.le_refl _)
  | evalText =>
    refine serves_of_ask h fun i hi h => ?_
    obtain ⟨⟨result, ws'⟩, hrun, heq⟩ := Option.map_eq_some_iff.mp h
    cases heq
    exact serves_of_evalText hi hrun
  | evalWith =>
    refine serves_of_ask h fun i hi h => serves_of_ask h fun c hc h => ?_
    obtain ⟨⟨result, c', ws'⟩, heval, heq⟩ := Option.map_eq_some_iff.mp h
    cases heq
    obtain ⟨⟨result, m⟩, hrun, heq⟩ := Option.map_eq_some_iff.mp heval
    cases heq
    exact .ranOn (.evalWith hi hc) rfl (.note _) hc (.of_block hrun)
  | spawn =>
    refine serves_of_ask h fun i hi h => serves_of_ask h fun c hc h => ?_
    obtain ⟨ws', hrun, heq⟩ := Option.map_eq_some_iff.mp h
    cases heq
    exact serves_of_spawn hi hc hrun
  | invoke =>
    refine serves_of_ask h fun i hi h => serves_of_ask h fun c hc h => ?_
    obtain ⟨⟨result, c', ws'⟩, hrun, heq⟩ := Option.map_eq_some_iff.mp h
    cases heq
    exact serves_of_invoke hi hc hrun
  | newContext => cases h; exact .newContext
  | derive =>
    refine serves_of_ask h fun c hc h => ?_
    cases h
    exact .derive hc
  | adjust =>
    refine serves_of_ask h fun c hc h => ?_
    cases h
    exact .adjust hc
  | read =>
    refine serves_of_ask h fun c _ h => ?_
    cases h
    exact .nothing
  | write =>
    refine serves_of_ask h fun c hc h => ?_
    cases h
    exact .write hc
  | sessionVars => cases h; exact .sessionVars
  | globalVars => cases h; exact .globalVars
  | clearSession => cases h; exact .clearSession
  | drain => cases h; exact .drain

end Inversion

/-! ## What that is for pools, sessions and contexts -/

/-- What a run with the given registry makes of a world. -/
structure Ran (registry : Registry) (w w' : World) : Prop where
  upkeep : ∀ p, Upkeep registry p → p w → p w'
  onward : w.Onward w'

/-- Pools stay as they are, interpreters keep to them, no session loses its variables, and every
    context uses the same variables as one that was there, or those that its session has now. -/
structure Quiet (ws ws' : Workspace) : Prop where
  pools : ws'.pools = ws.pools
  interpreters : ∀ x ∈ ws'.interpreters, ∃ y ∈ ws.interpreters, y.2.pool = x.2.pool
  stores : ws.world.stores.Extends ws'.world.stores
  contexts : ∀ x ∈ ws'.contexts,
    (∃ y ∈ ws.contexts, y.2.session = x.2.session ∧ y.2.store = x.2.store) ∨
      x.2.Current ws'.world.stores

/-- What serving a request can do to the pools, the sessions and the contexts. -/
inductive Does (ws : Workspace) : Request → Workspace → Prop where
  | quiet {r ws'} : Quiet ws ws' → Does ws r ws'
  | added {name session config} :
      Does ws (.addInterpreter name session config) (ws.addInterpreter name session config)
  | cleared {session} : Does ws (.clearSession session) (ws.clearSession session).2
  | ran {r i w ws'} :
      Ran (ws.registry i) (ws.worldOf i) w → Quiet (ws.adopt i w) ws' → Does ws r ws'

variable {ws ws' : Workspace} {r : Request}

theorem Named.mem_put {α : Type} {xs : Named α} {name : String} {a : α} {x : String × α}
    (h : x ∈ xs.put name a) : x = (name, a) ∨ x ∈ xs := by
  rcases List.mem_cons.mp h with rfl | h
  · exact .inl rfl
  · exact .inr (List.mem_filter.mp h).1

theorem mem_of_lookup {α β : Type} [BEq α] [LawfulBEq α] {l : List (α × β)} {a : α} {b : β}
    (h : l.lookup a = some b) : (a, b) ∈ l := by
  obtain ⟨before, after, rfl, -⟩ := List.lookup_eq_some_iff.mp h
  exact List.mem_append_right _ List.mem_cons_self

theorem Quiet.of_eq (hp : ws'.pools = ws.pools) (hi : ws'.interpreters = ws.interpreters)
    (hs : ws.world.stores.Extends ws'.world.stores) (hc : ws'.contexts = ws.contexts) :
    Quiet ws ws' where
  pools := hp
  interpreters x hx := ⟨x, hi ▸ hx, rfl⟩
  stores := hs
  contexts x hx := .inl ⟨x, hc ▸ hx, rfl, rfl⟩

theorem Quiet.refl (ws : Workspace) : Quiet ws ws := .of_eq rfl rfl (.refl _) rfl

theorem Quiet.setContext {name : String} {c : Context} (h : Quiet ws ws')
    (hc : (∃ y ∈ ws.contexts, y.2.session = c.session ∧ y.2.store = c.store) ∨
      c.Current ws'.world.stores) : Quiet ws (ws'.setContext name c) where
  pools := h.pools
  interpreters := h.interpreters
  stores := h.stores
  contexts x hx := by
    rcases Named.mem_put hx with rfl | hx
    · exact hc
    · exact h.contexts x hx

/-- A context takes the place of one that uses the same variables. -/
theorem Quiet.replace {name context : String} {c c' : Context} (h : Quiet ws ws')
    (hc : ws.contexts.lookup context = some c) (hsession : c'.session = c.session)
    (hstore : c'.store = c.store) : Quiet ws (ws'.setContext name c') :=
  h.setContext (.inl ⟨(context, c), mem_of_lookup hc, hsession.symm, hstore.symm⟩)

theorem quiet_register (ws : Workspace) (i : Interpreter) (c : Callable) :
    Quiet ws (ws.register i c).2 := by
  unfold Workspace.register
  split <;> exact .of_eq rfl rfl (.refl _) rfl

theorem quiet_registerModule (ws : Workspace) (i : Interpreter) (m : Module) :
    Quiet ws (ws.registerModule i m).2 := by
  unfold Workspace.registerModule
  split
  · exact .refl ws
  · split <;> exact .of_eq rfl rfl (.refl _) rfl

theorem Ran.of_ends {env : Env} {j : Eval.Job} {m m' : Machine} {r : Except EvalError Unit}
    (h : Eval.Ends env j m r m') : Ran env.registry m.world m'.world :=
  ⟨fun _ hp hm => h.upkeep hp hm, h.onward⟩

theorem Ran.refl (registry : Registry) (w : World) : Ran registry w w :=
  ⟨fun _ _ hw => hw, .refl w⟩

theorem Ran.trans {registry : Registry} {w₁ w₂ w₃ : World} (h : Ran registry w₁ w₂)
    (h' : Ran registry w₂ w₃) : Ran registry w₁ w₃ :=
  ⟨fun p hp h₁ => h'.upkeep p hp (h.upkeep p hp h₁), h.onward.trans h'.onward⟩

theorem ran_note (registry : Registry) (w : World) (e : Event) : Ran registry w (w.note e) :=
  ⟨fun _ hp hw => hp.note _ _ hw, World.onward_note w e⟩

theorem Noted.ran {w w' : World} (h : Noted w w') (registry : Registry) : Ran registry w w' := by
  cases h with
  | still => exact .refl registry w
  | note e => exact ran_note registry w e

theorem ran_loaned {env : Env} {session : SessionId} {p : Linked Block} {w : World} {m : Machine}
    {r : Except EvalError Unit}
    (h : Eval.Ends env (.block p)
      (Eval.begun p ⟨(w.obtain session).1, (w.obtain session).2⟩) r m) :
    Ran env.registry w (m.world.release m.ctx) :=
  ⟨fun _ hp hw => hp.release _ _ (h.upkeep hp (hp.note _ _ (hp.obtain _ _ hw))),
    World.tracks_onward.loaned h⟩

theorem does_serve {a : Answer} (h : ws.serve r = some (a, ws')) : Does ws r ws' := by
  cases serves_of_serve h with
  | nothing => exact .quiet (.refl ws)
  | addInterpreter => exact .added
  | @cloneInterpreter interpreter name i hi =>
    refine .quiet ⟨rfl, ?_, .refl _, fun x hx => .inl ⟨x, hx, rfl, rfl⟩⟩
    intro x hx
    rcases Named.mem_put hx with rfl | hx
    · exact ⟨(interpreter, i), mem_of_lookup hi, rfl⟩
    · exact ⟨x, hx, rfl⟩
  | dropInterpreter =>
    refine .quiet ⟨rfl, ?_, .refl _, fun x hx => .inl ⟨x, hx, rfl, rfl⟩⟩
    exact fun x hx => ⟨x, (List.mem_filter.mp hx).1, rfl⟩
  | register => exact .quiet (quiet_register ws _ _)
  | registerModule => exact .quiet (quiet_registerModule ws _ _)
  | load | globalVars | drain => exact .quiet (.of_eq rfl rfl (.of_sessions rfl) rfl)
  | @dropProgram name emptyDrawer =>
    cases emptyDrawer <;> exact .quiet (.of_eq rfl rfl (.refl _) rfl)
  | @newContext name session =>
    have hnew : Quiet ws (ws.newContext session).2 :=
      .of_eq rfl rfl (ws.world.stores.extends_obtain session) rfl
    exact .quiet (hnew.setContext (.inr (Context.current_create ws.world.stores session)))
  | derive hc | adjust hc => exact .quiet ((Quiet.refl ws).replace hc rfl rfl)
  | @write context v value c hc =>
    have hwritten : Quiet ws (ws.write c v value).2 :=
      .of_eq rfl rfl (.of_sessions (c.write_sessions ws.world.stores v value)) rfl
    have hcontrol := Context.control_eq_iff.mp (c.write_control ws.world.stores v value)
    exact .quiet (hwritten.replace hc hcontrol.1 hcontrol.2.1)
  | @sessionVars session =>
    exact .quiet (.of_eq rfl rfl (ws.world.stores.extends_obtain session) rfl)
  | clearSession => exact .cleared
  | ranPooled _ henv hends =>
    exact .ran (henv ▸ ran_loaned hends) (.of_eq rfl rfl (.refl _) rfl)
  | ranOn _ henv hnoted hc hends =>
    have hran := (hnoted.ran _).trans (henv ▸ Ran.of_ends hends)
    have hframe := hends.restores.1
    exact .ran hran ((Quiet.refl _).replace hc hframe.session hframe.store)
  | ranApart _ henv hends hnoted =>
    have hran := (ran_note _ _ _).trans (henv ▸ Ran.of_ends hends)
    exact .ran (hran.trans (hnoted.ran _)) (.refl _)

/-! ## Histories that keep to a rule -/

/-- Whether every request of a list is allowed when its turn comes. -/
def keepsTo (allow : Workspace → Request → Bool) : Workspace → List Request → Bool
  | _, [] => true
  | ws, r :: rs =>
    allow ws r &&
      match ws.serve r with
      | some (_, ws) => keepsTo allow ws rs
      | none => true

/-- What every allowed request of a list keeps holds after the list. -/
theorem keepsTo_induction {allow : Workspace → Request → Bool} {p : Workspace → Prop}
    {rs : List Request} {answers : List Answer}
    (hstep : ∀ {ws r a ws'}, r ∈ rs → allow ws r = true → ws.serve r = some (a, ws') →
      p ws → p ws')
    (hrule : keepsTo allow ws rs = true) (hp : p ws) (h : ws.serveAll rs = some (answers, ws')) :
    p ws' := by
  induction rs generalizing ws answers with
  | nil => cases h; exact hp
  | cons r rs ih =>
    rw [keepsTo, Bool.and_eq_true] at hrule
    rw [serveAll] at h
    cases hserve : ws.serve r with
    | none => rw [hserve] at h; cases h
    | some first =>
      obtain ⟨a, ws₁⟩ := first
      rw [hserve] at h hrule
      obtain ⟨⟨rest, ws₂⟩, hrest, heq⟩ := Option.map_eq_some_iff.mp h
      cases heq
      have hfirst := hstep List.mem_cons_self hrule.1 hserve hp
      exact ih (fun hr => hstep (List.mem_cons_of_mem r hr)) hrule.2 hfirst hrest

/-- Without a rule, everything is allowed. -/
theorem keepsTo_true (ws : Workspace) (rs : List Request) :
    keepsTo (fun _ _ => true) ws rs = true := by
  induction rs generalizing ws with
  | nil => rfl
  | cons r rs ih =>
    rw [keepsTo, Bool.true_and]
    split
    · exact ih _
    · rfl

/-- What every request of a list keeps holds after the list. -/
theorem serveAll_induction {p : Workspace → Prop} {rs : List Request} {answers : List Answer}
    (hstep : ∀ {ws r a ws'}, r ∈ rs → ws.serve r = some (a, ws') → p ws → p ws') (hp : p ws)
    (h : ws.serveAll rs = some (answers, ws')) : p ws' :=
  keepsTo_induction (fun hr _ => hstep hr) (keepsTo_true ws rs) hp h

end Workspace

end TierScript
