import TierScript.Proofs.Host.Pools
import TierScript.Proofs.Run.Unpooled

/-!
# Whether pooling can be noticed

A host can choose how many idle contexts an interpreter keeps, down to none. The choice should make
no difference to anything but the number of idle contexts.

* `serve_unpooled`: a workspace whose pools are fresh answers every request as the same workspace
  with pools that keep nothing, and stays the same but for its pools.
* `pooling_unnoticed_unless_stale`: after all requests, what a pool hands out is a new context,
  unless the context on top is stale. If no session is forgotten while an idle context of it waits,
  then no context is ever stale, and the capacities of the pools make no difference.
* `pooling_noticed`: otherwise they do.
-/

namespace TierScript

/-! ## Workspaces without pools -/

/-- The same interpreter, without idle contexts. -/
def Interpreter.unpooled (i : Interpreter) : Interpreter := { i with config := i.config.unpooled }

/-- The same request. An interpreter that is added keeps no idle contexts. -/
def Request.unpooled : Request → Request
  | .addInterpreter name session config => .addInterpreter name session config.unpooled
  | r => r

theorem lookup_map_snd {α β γ : Type} [BEq α] (l : List (α × β)) (f : β → γ) (a : α) :
    (l.map fun e => (e.1, f e.2)).lookup a = (l.lookup a).map f := by
  induction l with
  | nil => rfl
  | cons e l ih =>
    obtain ⟨k, b⟩ := e
    simp only [List.map_cons, List.lookup_cons]
    split
    · rfl
    · exact ih

namespace Workspace

/-- The same workspace with pools that keep nothing. -/
def unpooled (ws : Workspace) : Workspace :=
  { ws with
    world := ws.world.unpooled
    interpreters := ws.interpreters.map fun x => (x.1, x.2.unpooled)
    pools := ws.pools.map fun e => (e.1, { capacity := 0 }) }

/-- The same answer, with pools that keep nothing in the workspace that is left. -/
def bare {α : Type} (answer : α × Workspace) : α × Workspace := (answer.1, answer.2.unpooled)

variable {ws ws' : Workspace} {i : Interpreter}

/-! ## Every interpreter has its pool -/

/-- Every interpreter has its pool. -/
def Housed (ws : Workspace) : Prop :=
  ∀ x ∈ ws.interpreters, x.2.pool ∈ ws.pools.map Prod.fst

theorem adopt_pools_fst (ws : Workspace) (i : Interpreter) (w : World) :
    (ws.adopt i w).pools.map Prod.fst = ws.pools.map Prod.fst := by
  show (ws.pools.map _).map Prod.fst = _
  rw [List.map_map]
  refine List.map_congr_left fun e _ => ?_
  simp only [Function.comp_apply]
  split <;> rfl

theorem Does.housed {r : Request} (h : Does ws r ws') (hw : ws.Housed) : ws'.Housed := by
  have hquiet {ws ws' : Workspace} (hq : Quiet ws ws') (hw : ws.Housed) : ws'.Housed := by
    intro x hx
    obtain ⟨y, hy, heq⟩ := hq.interpreters x hx
    rw [hq.pools, ← heq]
    exact hw y hy
  cases h with
  | quiet hq => exact hquiet hq hw
  | added =>
    intro x hx
    rcases Named.mem_put hx with rfl | hx
    · exact List.mem_cons_self
    · exact List.mem_cons_of_mem _ (hw x hx)
  | cleared => exact hw
  | @ran _ i w _ hran hq =>
    refine hquiet hq fun x hx => ?_
    rw [adopt_pools_fst]
    exact hw x hx

/-! ## One operation after another -/

theorem exists_lookup_pool (h : i.pool ∈ ws.pools.map Prod.fst) :
    ∃ p, ws.pools.lookup i.pool = some p := by
  refine Option.ne_none_iff_exists'.mp fun hnone => ?_
  obtain ⟨e, he, heq⟩ := List.mem_map.mp h
  simpa [heq] using List.lookup_eq_none_iff.mp hnone e he

theorem unpooled_worldOf (h : i.pool ∈ ws.pools.map Prod.fst) :
    ws.unpooled.worldOf i.unpooled = (ws.worldOf i).unpooled := by
  obtain ⟨p, hp⟩ := exists_lookup_pool h
  have hpool : ws.unpooled.pool i.unpooled = { capacity := 0 } := by
    show ((ws.pools.map fun e => (e.1, ({ capacity := 0 } : Pool))).lookup i.pool).getD default = _
    rw [lookup_map_snd ws.pools (fun _ => ({ capacity := 0 } : Pool)), hp]
    rfl
  rw [worldOf, hpool]
  rfl

theorem unpooled_adopt (ws : Workspace) (i : Interpreter) (w : World) :
    ws.unpooled.adopt i.unpooled w.unpooled = (ws.adopt i w).unpooled := by
  have hpools : (ws.unpooled.setPool i.unpooled { capacity := 0 }).pools =
      (ws.setPool i w.pool).pools.map fun e => (e.1, { capacity := 0 }) := by
    unfold setPool unpooled
    simp only [List.map_map]
    refine List.map_congr_left fun e _ => ?_
    by_cases he : e.1 = i.pool <;> simp [he, Interpreter.unpooled]
  unfold adopt
  rw [show w.unpooled.pool = ({ capacity := 0 } : Pool) from rfl]
  simp only [unpooled, setPool] at hpools ⊢
  rw [hpools]

theorem unpooled_sweep (ws : Workspace) : ws.unpooled.sweep = ws.sweep.unpooled := by
  simp [sweep, unpooled, List.any_map, Function.comp_def, Interpreter.unpooled]

theorem put_map (xs : Named Interpreter) (name : String) (i : Interpreter) :
    Named.put (xs.map fun x => (x.1, x.2.unpooled)) name i.unpooled =
      (xs.put name i).map fun x => (x.1, x.2.unpooled) := by
  simp [Named.put, List.filter_map, Function.comp_def]

theorem unpooled_addInterpreter (ws : Workspace) (name : String) (session : SessionId)
    (config : Config) :
    ws.unpooled.addInterpreter name session config.unpooled =
      (ws.addInterpreter name session config).unpooled := by
  unfold addInterpreter
  dsimp only
  rw [← unpooled_sweep]
  congr 1
  simp only [unpooled, ← put_map]
  rfl

theorem unpooled_cloneInterpreter (ws : Workspace) (i : Interpreter) (name : String) :
    ws.unpooled.cloneInterpreter i.unpooled name = (ws.cloneInterpreter i name).unpooled := by
  unfold cloneInterpreter
  rw [← unpooled_sweep]
  simp only [unpooled, ← put_map]

theorem unpooled_dropInterpreter (ws : Workspace) (name : String) :
    ws.unpooled.dropInterpreter name = (ws.dropInterpreter name).unpooled := by
  unfold dropInterpreter
  rw [← unpooled_sweep]
  simp [unpooled, Named.remove, List.filter_map, Function.comp_def]

theorem unpooled_isShared (ws : Workspace) (i : Interpreter) :
    ws.unpooled.isShared i.unpooled = ws.isShared i := by
  simp [isShared, unpooled, List.filter_map, Function.comp_def, Interpreter.unpooled]

theorem unpooled_register (ws : Workspace) (i : Interpreter) (c : Callable) :
    ws.unpooled.register i.unpooled c = bare (ws.register i c) := by
  unfold register
  rw [unpooled_isShared]
  split <;> rfl

theorem unpooled_registerModule (ws : Workspace) (i : Interpreter) (m : Module) :
    ws.unpooled.registerModule i.unpooled m = bare (ws.registerModule i m) := by
  unfold registerModule
  rw [unpooled_isShared, show ws.unpooled.registry i.unpooled = ws.registry i from rfl,
    show ws.unpooled.fresh = ws.fresh from rfl]
  split
  · rfl
  · split <;> rfl

theorem unpooled_clearSession (ws : Workspace) (session : SessionId) :
    ws.unpooled.clearSession session = bare (ws.clearSession session) := by
  unfold clearSession
  rw [show ws.unpooled.world.stores = ws.world.stores from rfl]
  rcases ws.world.stores.forget session with ⟨_ | _, stores⟩ <;> rfl

/-! ## Evaluation -/

section Evaluation

open Eval

variable (hpool : i.pool ∈ ws.pools.map Prod.fst)
include hpool

theorem unpooled_eval {p : Linked Block} (hnew : (ws.worldOf i).LikeNew i.session)
    (hs : Smooth (ws.env i [p.program]) (.block p) (begun p (ws.taken i))) :
    ws.unpooled.eval i.unpooled p = (ws.eval i p).map bare := by
  have hrun := pooled_unpooled hnew hs fuel
  unfold eval
  rw [unpooled_worldOf hpool, show ws.unpooled.env i.unpooled [p.program] =
    (ws.env i [p.program]).unpooled from rfl, show i.unpooled.session = i.session from rfl, hrun]
  cases pooled (ws.env i [p.program]) fuel i.session p (ws.worldOf i) with
  | none => rfl
  | some answer => exact congrArg (fun ws' => some (answer.1, ws')) (unpooled_adopt ws i answer.2)

theorem unpooled_evalText {text : List Char}
    (hnew : ∀ b, parse ⟨i.config.fileName, text⟩ = .ok b → (ws.worldOf i).LikeNew i.session)
    (hs : ∀ b, parse ⟨i.config.fileName, text⟩ = .ok b →
      Smooth (ws.env i [ws.fresh]) (.block ⟨ws.fresh, b⟩) (begun ⟨ws.fresh, b⟩ (ws.taken i))) :
    ws.unpooled.evalText i.unpooled text = (ws.evalText i text).map bare := by
  unfold evalText load
  rw [show i.unpooled.config.fileName = i.config.fileName from rfl]
  cases hp : parse ⟨i.config.fileName, text⟩ with
  | error d => rfl
  | ok b =>
    have hpool' : i.pool ∈ ({ ws with fresh := ws.fresh + 1 } : Workspace).pools.map Prod.fst :=
      hpool
    exact unpooled_eval hpool' (p := ⟨ws.fresh, b⟩) (hnew b hp) (hs b hp)

theorem unpooled_evalWith {p : Linked Block} {c : Context}
    (hs : Smooth (ws.env i []) (.block p) (begun p ⟨c, ws.worldOf i⟩)) :
    ws.unpooled.evalWith i.unpooled p c =
      (ws.evalWith i p c).map fun (r, c, ws) => (r, c, ws.unpooled) := by
  have hrun := program_unpooled hs fuel
  unfold evalWith
  rw [unpooled_worldOf hpool, show ws.unpooled.env i.unpooled [] = (ws.env i []).unpooled from rfl,
    show (⟨c, (ws.worldOf i).unpooled⟩ : Machine) = (⟨c, ws.worldOf i⟩ : Machine).unpooled from rfl,
    hrun]
  cases program (ws.env i []) fuel p ⟨c, ws.worldOf i⟩ with
  | none => rfl
  | some e => exact congrArg (fun ws' => some (e.1, e.2.ctx, ws')) (unpooled_adopt ws i e.2.world)

theorem unpooled_spawn {b : Linked Block} {c : Context}
    (hs : Smooth ((ws.env i []).hold (.ofBlock b)) (.block b) (taskMachine ⟨c, ws.worldOf i⟩)) :
    ws.unpooled.spawn i.unpooled b c = (ws.spawn i b c).map unpooled := by
  have hrun := task_unpooled hs fuel
  unfold spawn
  rw [unpooled_worldOf hpool, show ws.unpooled.env i.unpooled [] = (ws.env i []).unpooled from rfl,
    show (⟨c, (ws.worldOf i).unpooled⟩ : Machine) = (⟨c, ws.worldOf i⟩ : Machine).unpooled from rfl,
    hrun]
  cases task (ws.env i []) fuel b ⟨c, ws.worldOf i⟩ with
  | none => rfl
  | some m => exact congrArg some (unpooled_adopt ws i m.world)

theorem unpooled_invoke_script {f : Linked FnDef} {args : List Expr} {c : Context}
    (hs : Smooth (ws.env i []) (.script f args) ⟨c, ws.worldOf i⟩) :
    ws.unpooled.invoke i.unpooled (.script f) args c =
      (ws.invoke i (.script f) args c).map fun (r, c, ws) => (r, c, ws.unpooled) := by
  have hrun : script (ws.env i []).unpooled fuel f args (⟨c, ws.worldOf i⟩ : Machine).unpooled =
      (script (ws.env i []) fuel f args ⟨c, ws.worldOf i⟩).map unpool := run_unpooled hs fuel
  unfold invoke
  rw [unpooled_worldOf hpool, show ws.unpooled.env i.unpooled [] = (ws.env i []).unpooled from rfl]
  dsimp only [Machine.unpooled] at hrun ⊢
  rw [hrun]
  rcases script (ws.env i []) fuel f args ⟨c, ws.worldOf i⟩ with _ | ⟨r, m⟩
  · rfl
  · exact congrArg (fun ws' => some (r, m.ctx, ws')) (unpooled_adopt ws i m.world)

theorem unpooled_invoke_native {name : String} {arity : Arity} {body : List Expr → Action}
    {args : List Expr} {c : Context}
    (hs : Smooth (ws.env i []) (.action name (body args)) ⟨c, ws.worldOf i⟩) :
    ws.unpooled.invoke i.unpooled (.native name arity body) args c =
      (ws.invoke i (.native name arity body) args c).map
        fun (r, c, ws) => (r, c, ws.unpooled) := by
  have hrun := action_unpooled hs fuel
  have hfinish (r : Except EvalError Unit) (m : Machine) :
      some (r, m.ctx, ws.unpooled.adopt i.unpooled m.world.unpooled) =
        some (r, m.ctx, (ws.adopt i m.world).unpooled) := by rw [unpooled_adopt]
  unfold invoke
  rw [unpooled_worldOf hpool, show ws.unpooled.env i.unpooled [] = (ws.env i []).unpooled from rfl]
  dsimp only [Machine.unpooled] at hrun ⊢
  rw [hrun]
  rcases action (ws.env i []) fuel (body args) ⟨c, ws.worldOf i⟩ with _ | ⟨(e | s) | _, m⟩
  · rfl
  · exact hfinish _ m
  · exact hfinish _ m
  · exact hfinish _ m

end Evaluation

/-! ## Requests -/

/-- A request about an interpreter. -/
theorem unpooled_ask_interpreter {name : String} {f g : Interpreter → Option (Answer × Workspace)}
    (h : ∀ i, ws.interpreters.lookup name = some i → g i.unpooled = (f i).map bare) :
    ws.unpooled.ask ws.unpooled.interpreters name g = (ws.ask ws.interpreters name f).map bare := by
  unfold ask
  rw [show ws.unpooled.interpreters = ws.interpreters.map fun x => (x.1, x.2.unpooled) from rfl,
    lookup_map_snd]
  cases hl : ws.interpreters.lookup name with
  | none => rfl
  | some i => exact h i hl

/-- A request about a context. -/
theorem unpooled_ask_context {context : String} {f g : Context → Option (Answer × Workspace)}
    (h : ∀ c, ws.contexts.lookup context = some c → g c = (f c).map bare) :
    ws.unpooled.ask ws.unpooled.contexts context g = (ws.ask ws.contexts context f).map bare := by
  unfold ask
  rw [show ws.unpooled.contexts = ws.contexts from rfl]
  cases hl : ws.contexts.lookup context with
  | none => rfl
  | some c => exact h c hl

/-- A run is smooth if all contexts that are taken meanwhile are like new ones. -/
theorem Starts.smooth {r : Request} {env : Env} {j : Eval.Job} {m : Machine}
    (hs : Starts ws r env j m) (hcleared : ws.Cleared)
    (hnew : ∀ w session, ws.Takes r w session → w.LikeNew session) : Eval.Smooth env j m where
  cleared := by
    obtain ⟨i, -, hran⟩ := hs.ran
    exact hran.upkeep _ (upkeep_cleared _) (hcleared.worldOf i)
  unstale hr hdeep :=
    have htakes := Takes.call hs hr hdeep
    (World.likeNew_iff (hcleared.takes htakes)).mp (hnew _ _ htakes)

/-- If all contexts that are taken while a request is served are like new ones, it is answered as if
    the pools kept nothing. -/
theorem serve_unpooled {r : Request} (hcleared : ws.Cleared) (hhoused : ws.Housed)
    (hnew : ∀ w session, ws.Takes r w session → w.LikeNew session) :
    ws.unpooled.serve r.unpooled = (ws.serve r).map bare := by
  have hpool {name : String} {i : Interpreter} (hi : ws.interpreters.lookup name = some i) :
      i.pool ∈ ws.pools.map Prod.fst := hhoused _ (mem_of_lookup hi)
  have hsmooth {env : Env} {j : Eval.Job} {m : Machine} (hs : Starts ws r env j m) :
      Eval.Smooth env j m := hs.smooth hcleared hnew
  cases r with
  | addInterpreter name session config =>
    exact congrArg (fun ws' => some (Answer.done, ws'))
      (unpooled_addInterpreter ws name session config)
  | cloneInterpreter interpreter name =>
    refine unpooled_ask_interpreter fun i _ => ?_
    rw [unpooled_cloneInterpreter]
    rfl
  | dropInterpreter name =>
    exact congrArg (fun ws' => some (Answer.done, ws')) (unpooled_dropInterpreter ws name)
  | register interpreter c =>
    refine unpooled_ask_interpreter fun i _ => ?_
    rw [unpooled_register]
    rfl
  | registerModule interpreter m =>
    refine unpooled_ask_interpreter fun i _ => ?_
    rw [unpooled_registerModule]
    rfl
  | load name source =>
    show ws.unpooled.serve (.load name source) = _
    rw [serve, serve, load, load]
    cases parse source <;> rfl
  | dropProgram name emptyDrawer => cases emptyDrawer <;> rfl
  | eval interpreter p =>
    refine unpooled_ask_interpreter fun i hi => ?_
    rw [unpooled_eval (hpool hi) (hnew _ _ (.eval hi)) (hsmooth (.eval hi))]
    cases ws.eval i p <;> rfl
  | evalText interpreter text =>
    refine unpooled_ask_interpreter fun i hi => ?_
    rw [unpooled_evalText (hpool hi) (fun b hb => hnew _ _ (.evalText hi hb))
      fun b hb => hsmooth (.evalText hi hb)]
    cases ws.evalText i text <;> rfl
  | evalWith interpreter p context =>
    refine unpooled_ask_interpreter fun i hi => unpooled_ask_context fun c hc => ?_
    rw [unpooled_evalWith (hpool hi) (hsmooth (.evalWith hi hc))]
    cases ws.evalWith i p c <;> rfl
  | spawn interpreter b context =>
    refine unpooled_ask_interpreter fun i hi => unpooled_ask_context fun c hc => ?_
    rw [unpooled_spawn (hpool hi) (hsmooth (.spawn hi hc))]
    cases ws.spawn i b c <;> rfl
  | invoke interpreter callable args context =>
    refine unpooled_ask_interpreter fun i hi => unpooled_ask_context fun c hc => ?_
    cases callable with
    | script f =>
      rw [unpooled_invoke_script (hpool hi) (hsmooth (.invokeScript hi hc))]
      cases ws.invoke i (.script f) args c <;> rfl
    | native name arity body =>
      rw [unpooled_invoke_native (hpool hi) (hsmooth (.invokeNative hi hc))]
      cases ws.invoke i (.native name arity body) args c <;> rfl
  | newContext | sessionVars | globalVars | drain => rfl
  | derive | adjust | read | write => exact unpooled_ask_context fun c _ => rfl
  | clearSession session =>
    show ws.unpooled.serve (.clearSession session) = _
    rw [serve, serve, unpooled_clearSession]
    rfl

/-! ## Histories -/

/-- Every context that is taken from a pool while the requests are served is like a new one. -/
def AllNew : Workspace → List Request → Prop
  | _, [] => True
  | ws, r :: rs =>
    (∀ w session, ws.Takes r w session → w.LikeNew session) ∧
      ∀ a ws', ws.serve r = some (a, ws') → AllNew ws' rs

theorem serveAll_unpooled {rs : List Request} (hcleared : ws.Cleared) (hhoused : ws.Housed)
    (hnew : AllNew ws rs) :
    ws.unpooled.serveAll (rs.map Request.unpooled) = (ws.serveAll rs).map bare := by
  induction rs generalizing ws with
  | nil => rfl
  | cons r rs ih =>
    rw [List.map_cons, serveAll, serveAll, serve_unpooled hcleared hhoused hnew.1]
    cases hserve : ws.serve r with
    | none => rfl
    | some first =>
      obtain ⟨a, ws₁⟩ := first
      have hdoes := does_serve hserve
      have hrest := ih (hdoes.cleared_pools hcleared) (hdoes.housed hhoused) (hnew.2 a ws₁ hserve)
      dsimp only [Option.map_some, bare]
      rw [hrest]
      cases ws₁.serveAll rs <;> rfl

/-- The capacities of the pools make no difference to requests for which all contexts that are taken
    are like new ones. -/
theorem serveAll_eq_of_allNew {rs rs' : List Request}
    (hrs : rs'.map Request.unpooled = rs.map Request.unpooled) (h : AllNew {} rs)
    (h' : AllNew {} rs') :
    (({} : Workspace).serveAll rs').map bare = (({} : Workspace).serveAll rs).map bare := by
  have hcleared : ({} : Workspace).Cleared := List.forall_mem_nil _
  have hhoused : ({} : Workspace).Housed := List.forall_mem_nil _
  rw [← serveAll_unpooled hcleared hhoused h, ← serveAll_unpooled hcleared hhoused h', hrs]

theorem allNew_of_sparesIdle {rs : List Request} (hfresh : ws.Fresh)
    (hrule : keepsTo sparesIdle ws rs = true) : AllNew ws rs := by
  induction rs generalizing ws with
  | nil => trivial
  | cons r rs ih =>
    rw [keepsTo, Bool.and_eq_true] at hrule
    refine ⟨fun w session htakes => (hfresh.takes htakes).likeNew session, ?_⟩
    intro a ws₁ hserve
    rw [hserve] at hrule
    exact ih ((does_serve hserve).fresh hrule.1 hfresh) hrule.2

/-! ## Pools that keep nothing -/

/-- No pool keeps contexts. -/
def Spent (ws : Workspace) : Prop := ∀ e ∈ ws.pools, e.2 = { capacity := 0 }

theorem upkeep_spent (registry : Registry) :
    Upkeep registry fun w => w.pool = { capacity := 0 } where
  note _ _ h := h
  print _ _ h := h
  keep _ _ h := h
  store _ _ h := h
  obtain _ _ h := by simp [World.obtain, Pool.obtain, h]
  release _ _ h := by simp [World.release, Pool.release, h]
  resolve _ hr h := by rw [(Machine.resolve_recalls hr).pool, h]
  resolveModuleCall _ hr h := by rw [(Machine.resolveModuleCall_recalls hr).pool, h]

theorem Does.spent {r : Request} (h : Does ws r.unpooled ws') (hw : ws.Spent) : ws'.Spent := by
  generalize hr : r.unpooled = r' at h
  cases h with
  | quiet hq => exact fun e he => hw e (hq.pools ▸ he)
  | @added name session config =>
    -- A pool comes with its interpreter only, and a request without pools gives it no capacity.
    have hcapacity : config.poolCapacity = 0 := by
      cases r with
      | addInterpreter => cases hr; rfl
      | _ => cases hr
    intro e he
    rcases List.mem_cons.mp he with rfl | he
    · rw [hcapacity]
    · exact hw e he
  | cleared => exact hw
  | @ran _ i w _ hran hq =>
    intro e he
    rw [hq.pools] at he
    rcases mem_pools_adopt he with ⟨heq, hkey⟩ | he
    · rw [heq]
      obtain ⟨p, hp⟩ := exists_lookup_pool hkey
      have hempty : ws.pool i = { capacity := 0 } := by
        rw [Workspace.pool, hp]
        exact hw _ (mem_of_lookup hp)
      exact hran.upkeep _ (upkeep_spent _) hempty
    · exact hw e he

theorem Spent.sparesIdle (h : ws.Spent) (r : Request) : ws.sparesIdle r = true := by
  cases r with
  | clearSession session =>
    refine List.all_eq_true.mpr fun e he => ?_
    rw [h e he]
    rfl
  | _ => rfl

theorem keepsTo_unpooled (h : ws.Spent) (rs : List Request) :
    keepsTo sparesIdle ws (rs.map Request.unpooled) = true := by
  induction rs generalizing ws with
  | nil => rfl
  | cons r rs ih =>
    rw [List.map_cons, keepsTo, h.sparesIdle, Bool.true_and]
    split
    · next hserve => exact ih ((does_serve hserve).spent h)
    · rfl

/-! ## Whether pooling can be noticed -/

/-- After all requests, a context that is taken from a pool is a new one unless the context on top
    of the pool is stale. It never is if no session is forgotten while an idle context of it waits,
    nor if the pools keep nothing. And as long as all contexts that are taken are like new ones, the
    capacities of the pools make no difference to the answers, nor to anything in the workspace but
    the pools. -/
theorem pooling_unnoticed_unless_stale (rs : List Request) :
    (∀ answers ws r w session, ({} : Workspace).serveAll rs = some (answers, ws) →
      ws.Takes r w session → (w.LikeNew session ↔ ¬ w.Stale session)) ∧
    (keepsTo sparesIdle {} rs = true → AllNew {} rs) ∧
    AllNew {} (rs.map Request.unpooled) ∧
    (∀ rs', rs'.map Request.unpooled = rs.map Request.unpooled → AllNew {} rs → AllNew {} rs' →
      (({} : Workspace).serveAll rs').map bare = (({} : Workspace).serveAll rs).map bare) := by
  have hfresh : ({} : Workspace).Fresh := List.forall_mem_nil _
  have hspent : ({} : Workspace).Spent := List.forall_mem_nil _
  refine ⟨?_, allNew_of_sparesIdle hfresh, ?_, fun rs' hrs h h' => serveAll_eq_of_allNew hrs h h'⟩
  · intro answers ws r w session hserved htakes
    exact World.likeNew_iff ((serveAll_cleared hserved).takes htakes)
  · exact allNew_of_sparesIdle hfresh (keepsTo_unpooled hspent rs)

/-! ## A context that is stale -/

/-- Gives a session variable a value, forgets the given session, and prints the variable. -/
def writeForgetPrint (session : SessionId) : List Request :=
  [.addInterpreter "main" 1 {}, .register "main" Tool.print.callable,
    .evalText "main" "ss.x = 1".toList, .clearSession session,
    .evalText "main" "print(ss.x)".toList, .drain]

theorem printed_forgotten :
    printed (({} : Workspace).serveAll (writeForgetPrint 1)) = ["1"] := by decide +kernel

theorem printed_forgotten_unpooled :
    printed (({} : Workspace).serveAll ((writeForgetPrint 1).map Request.unpooled)) = ["null"] := by
  decide +kernel

/-- A context that waited in the pool brings the variables back that its session has lost, and a
    program can see it. -/
theorem pooling_noticed :
    (¬ ∀ rs, AllNew {} rs) ∧
    ¬ ∀ rs rs', rs'.map Request.unpooled = rs.map Request.unpooled →
      (({} : Workspace).serveAll rs').map bare = (({} : Workspace).serveAll rs).map bare := by
  have hprinted (answer : Option (List Answer × Workspace)) :
      printed (answer.map bare) = printed answer := by cases answer <;> rfl
  have hdiffer {rs' : List Request} (hrs : rs' = (writeForgetPrint 1).map Request.unpooled) :
      (({} : Workspace).serveAll rs').map bare ≠
        (({} : Workspace).serveAll (writeForgetPrint 1)).map bare := by
    subst hrs
    intro heq
    have hsame := congrArg printed heq
    rw [hprinted, hprinted, printed_forgotten, printed_forgotten_unpooled] at hsame
    exact absurd hsame (by decide)
  constructor
  · -- If all contexts were like new ones, the two outputs would be the same.
    intro hall
    exact hdiffer rfl (serveAll_eq_of_allNew rfl (hall _) (hall _))
  · intro hall
    exact hdiffer rfl (hall _ _ rfl)

/-- If another session is forgotten, the variable has its value with and without a pool. If its own
    session is forgotten, the context that is taken next is stale. -/
theorem pooling_unnoticed_unless_stale_other :
    keepsTo sparesIdle {} (writeForgetPrint 2) = true ∧
    printed (({} : Workspace).serveAll (writeForgetPrint 2)) = ["1"] ∧
    (({} : Workspace).serveAll ((writeForgetPrint 2).map Request.unpooled)).map bare =
      (({} : Workspace).serveAll (writeForgetPrint 2)).map bare ∧
    ∃ answers ws w p, ({} : Workspace).serveAll ((writeForgetPrint 1).take 4) = some (answers, ws) ∧
      ws.Takes (.eval "main" p) w 1 ∧ ¬ w.LikeNew 1 := by
  have hrule : keepsTo sparesIdle {} (writeForgetPrint 2) = true := by decide +kernel
  obtain ⟨-, hnew, hunpooled, hsame⟩ := pooling_unnoticed_unless_stale (writeForgetPrint 2)
  refine ⟨hrule, by decide +kernel, hsame _ rfl (hnew hrule) hunpooled, ?_⟩
  have htest : (({} : Workspace).serveAll ((writeForgetPrint 1).take 4)).any (fun a =>
      (a.2.interpreters.lookup "main").any fun i =>
        i.session = 1 ∧ (a.2.worldOf i).Stale i.session) = true := by decide +kernel
  obtain ⟨⟨answers, ws⟩, hserved, hany⟩ := (Option.any_eq_true _ _).mp htest
  obtain ⟨i, hi, hstale⟩ := (Option.any_eq_true _ _).mp hany
  obtain ⟨hsession, hstale⟩ := of_decide_eq_true hstale
  rw [hsession] at hstale
  have htakes : ws.Takes (.eval "main" ⟨9, default⟩) (ws.worldOf i) 1 := hsession ▸ .eval hi
  have hiff := (pooling_unnoticed_unless_stale _).1 answers ws _ _ 1 hserved htakes
  exact ⟨answers, ws, _, _, hserved, htakes, fun hlike => hiff.mp hlike hstale⟩

end Workspace

end TierScript
