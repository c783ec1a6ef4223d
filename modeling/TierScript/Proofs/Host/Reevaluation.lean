import TierScript.Proofs.Host.Copies
import TierScript.Proofs.Host.Isolation
import TierScript.Proofs.Host.Tending
import TierScript.Proofs.Run.Unpooled

/-!
# Evaluating a program again

A program that was evaluated before finds what its calls remember; a copy of it that was parsed just
now finds nothing. Since all that runs is in scope, that makes no difference.

* `SameStart`: runs that start alike, but for what calls remember.
* `SameStart.runs`: then copies of a block give the same answer, and leave the same context, the
  same variables and the same output.
* `calls_lexically_scoped`: whatever has been evaluated before, a statement runs with the functions
  that are around it in the text, and evaluations of a program and of a copy of it leave the same.
-/

namespace TierScript

/-! ## Runs that start alike -/

theorem Context.eq_of_unnumbered {c c' : Context} (h : c.unnumbered = c'.unnumbered)
    (hl : c.lexical = c'.lexical) (ho : c.offers = c'.offers) : c = c' :=
  calc
    c = { c'.unnumbered with lexical := c.lexical, offers := c.offers } :=
      congrArg (fun d : Context => { d with lexical := c.lexical, offers := c.offers }) h
    _ = c' := by rw [hl, ho]; rfl

namespace Eval

variable {programs programs' : List (Linked Block)} {env env' : Env} {j : Job} {m m' : Machine}

/-- The runs start with the same callables, on the same context, with the same variables and the
    same output. Idle contexts are the same, or else all use the variables that their sessions have
    now. -/
structure SameStart (env : Env) (m : Machine) (env' : Env) (m' : Machine) : Prop where
  registry : env.registry.undated = env'.registry.undated
  config : env.config = env'.config
  ctx : m.ctx = m'.ctx
  stores : m.world.stores = m'.world.stores
  output : m.world.output = m'.world.output
  pool : m.world.pool = m'.world.pool ∨ m.world.Fresh ∧ m'.world.Fresh

/-- An answer, with the shadow of the machine that is left, but for the pool. -/
def outlined {α : Type} (answer : α × Machine) : α × Machine := unpool (shadowed answer)

theorem Smooth.of_fresh (h : m.world.Fresh) : Smooth env j m where
  cleared := h.cleared
  unstale hr _ := (hr.onward h).1.not_stale

/-- Without idle contexts a run stays in scope. -/
theorem Aligned.unpooled (h : Aligned programs env j m) :
    Aligned programs env.unpooled j m.unpooled where
  numbered := h.numbered
  suits := h.suits
  stands := h.stands
  scope := h.scope
  cleared _ hc := absurd hc List.not_mem_nil
  indexed := h.indexed.of_eq rfl rfl
  placed := h.placed.of_eq rfl

/-- Copies of a block give the same answer, and leave the same context, variables and output. -/
theorem SameStart.runs (h : SameStart env m env' m') {b b' : Linked Block}
    (ha : Aligned programs env (.block b) m) (ha' : Aligned programs' env' (.block b') m')
    (hnode : b.node = b'.node) (hu : env.registry.Uniform) (n : Nat) :
    (block env n b m).map outlined = (block env' n b' m').map outlined := by
  rcases h.pool with hpool | ⟨hfresh, hfresh'⟩
  · have hshadow : m.shadow = m'.shadow := by
      rw [Machine.shadow, Machine.shadow, h.ctx, h.stores, h.output, hpool]
    have hsame : (block env n b m).map shadowed = (block env' n b' m').map shadowed :=
      lockstep_copies ⟨ha, ha', h.registry, h.config, hu, .block hnode, hshadow⟩ n
    have hmapped := congrArg (Option.map unpool) hsame
    rwa [Option.map_map, Option.map_map] at hmapped
  · -- with fresh pools both runs go as if there were no idle contexts
    have hshadow : m.unpooled.shadow = m'.unpooled.shadow := by
      rw [Machine.shadow, Machine.shadow, Machine.unpooled_ctx, Machine.unpooled_ctx, h.ctx]
      exact congrArg₂ (fun stores output => (⟨m'.ctx.unnumbered,
        { stores := stores, pool := { capacity := 0 }, output := output }⟩ : Machine))
        h.stores h.output
    have hconfig : env.unpooled.config = env'.unpooled.config := congrArg Config.unpooled h.config
    have hsame : (block env.unpooled n b m.unpooled).map shadowed =
        (block env'.unpooled n b' m'.unpooled).map shadowed :=
      lockstep_copies
        ⟨ha.unpooled, ha'.unpooled, h.registry, hconfig, hu, .block hnode, hshadow⟩ n
    have hrun : block env.unpooled n b m.unpooled = (block env n b m).map unpool :=
      run_unpooled (j := .block b) (.of_fresh hfresh) n
    have hrun' : block env'.unpooled n b' m'.unpooled = (block env' n b' m').map unpool :=
      run_unpooled (j := .block b') (.of_fresh hfresh') n
    rwa [hrun, hrun', Option.map_map, Option.map_map] at hsame

end Eval

/-! ## What an evaluation leaves -/

namespace Evaluation

/-- What an evaluation leaves: its answer, the variables, what was printed, and the context with its
    name. -/
def leaves (e : Evaluation) (x : Answer × Workspace) :
    Answer × Stores × List String × Option Context :=
  (x.1, x.2.world.stores, x.2.world.output, e.context.bind fun name => x.2.contexts.lookup name)

theorem leaves_finish (e : Evaluation) (a : Answer) (ws : Workspace) (i : Interpreter)
    (m : Machine) :
    e.leaves (a, e.finish ws i m) =
      (a, m.world.stores, m.world.output, e.context.map fun _ => m.ctx) := by
  have hcontext : (e.context.bind fun name => (e.finish ws i m).contexts.lookup name) =
      e.context.map fun _ => m.ctx := by
    cases hname : e.context with
    | none => rfl
    | some name => exact (e.finish_contexts name).trans (if_pos hname)
  rw [leaves, hcontext, e.finish_stores, e.finish_output]

end Evaluation

namespace Workspace.Kept

variable {programs programs' : List (Linked Block)} {ws ws' : Workspace} {e : Evaluation}
  {i i' : Interpreter} {env env' : Env} {m m' : Machine}

/-- Evaluations of copies that start alike leave the same. -/
theorem serve_copy (h : ws.Kept (Callable.Proper programs) programs)
    (h' : ws'.Kept (Callable.Proper programs') programs') {p : Linked Block}
    (hp : p.node = e.program.node) (hk : e.request.Keeps programs ws)
    (hk' : { e with program := p }.request.Keeps programs' ws')
    (hs : e.start ws = some (i, env, m))
    (hs' : { e with program := p }.start ws' = some (i', env', m'))
    (hsame : Eval.SameStart env m env' m') (hu : env.registry.Uniform) :
    (ws.serve e.request).map e.leaves =
      (ws'.serve { e with program := p }.request).map e.leaves := by
  have halike := hsame.runs (h.aligned hk (Evaluation.starts hs))
    (h'.aligned hk' (Evaluation.starts hs')) hp.symm hu fuel
  rw [Evaluation.serve_eq, Evaluation.serve_eq, hs, hs']
  dsimp only at halike ⊢
  cases hrun : Eval.block env fuel e.program m with
  | none =>
    rw [hrun] at halike
    rw [Option.map_eq_none_iff.mp halike.symm]
    rfl
  | some left =>
    rw [hrun] at halike
    obtain ⟨right, hrun', heq⟩ := Option.map_eq_some_iff.mp halike.symm
    rw [hrun']
    obtain ⟨r, m₁⟩ := left
    obtain ⟨r', m₁'⟩ := right
    obtain ⟨rfl, houtline⟩ := Prod.mk.inj heq
    have hrestored := (Eval.Ends.of_block hrun).restores
    have hrestored' := (Eval.Ends.of_block hrun').restores
    have hctx : m₁.ctx = m₁'.ctx := by
      refine Context.eq_of_unnumbered (congrArg Machine.ctx houtline).symm ?_ ?_
      · rw [hrestored.1.lexical, hrestored'.1.lexical, hsame.ctx]
      · rw [hrestored.2 rfl, hrestored'.2 rfl, hsame.ctx]
    have hstores : m₁.world.stores = m₁'.world.stores :=
      congrArg (fun m => m.world.stores) houtline.symm
    have houtput : m₁.world.output = m₁'.world.output :=
      congrArg (fun m => m.world.output) houtline.symm
    have hleft := e.leaves_finish (.ended r') ws i m₁
    have hright := { e with program := p }.leaves_finish (.ended r') ws' i' m₁'
    rw [hctx, hstores, houtput] at hleft
    exact congrArg some (hleft.trans hright.symm)

end Workspace.Kept

/-! ## Lexical scope -/

/-- Host functions keep nothing and run only blocks that they have claimed; programs run as a whole,
    on contexts that are in no block. Whatever has happened before, when a statement runs, its
    context has the functions of the blocks that are around it in the text, within the same
    function, and a call means the innermost one of them that fits, or else what the registry has.
    So an evaluation that starts like an evaluation of a copy of the program, which may have been
    parsed just now, leaves the same answer, variables, output and context. -/
theorem calls_lexically_scoped {programs : List (Linked Block)} {ws : Workspace}
    (h : Tended programs ws) :
    (∀ r env j m env' program s m', r.Keeps programs ws → ws.Starts r env j m →
      Eval.Reaches env j m env' (.stmt program s) m' →
        (⟨program, m'.ctx.lexical, s⟩ : Place).In programs ∧
        (∀ scope, (⟨program, scope, s⟩ : Place).In programs → scope = m'.ctx.lexical) ∧
        ∀ c, s = .call c → (m'.resolve env' program c).1 = Machine.meaning env' m'.ctx c) ∧
    ∀ (e : Evaluation) i env m programs' ws' p i' env' m',
      e.request.Keeps programs ws → e.start ws = some (i, env, m) → env.registry.Uniform →
      Tended programs' ws' → p.node = e.program.node →
      { e with program := p }.request.Keeps programs' ws' →
      { e with program := p }.start ws' = some (i', env', m') → Eval.SameStart env m env' m' →
        (ws.serve e.request).map e.leaves =
          (ws'.serve { e with program := p }.request).map e.leaves := by
  refine ⟨fun r env j m env' program s m' hr hs hreach => ?_, ?_⟩
  · have haligned := (h.kept.aligned hr hs).reaches hreach
    refine ⟨haligned.lexical_eq.1, haligned.lexical_eq.2, fun c hc => ?_⟩
    subst hc
    exact haligned.resolve_eq
  · intro e i env m programs' ws' p i' env' m' hk hs hu h' hp hk' hs' hsame
    exact h.kept.serve_copy h'.kept hp hk hk' hs hs' hsame hu

/-! ## A function that hides another one -/

/-- An interpreter that can print, and run a block twice. -/
def printer : Workspace :=
  let i : Interpreter := ⟨1, {}, 1, 1⟩
  let ws := (({} : Workspace).addInterpreter "main" 1 {}).register i Tool.print.callable
  (ws.2.register i Tool.twice.callable).2

/-- In the block the function `g` is another one than around it. -/
def innerAndOuter : Source := .ofString "p"
  "fn g() print(1) end fn g() twice() \x7b fn g() print(2) end fn g() \x7d g()"

theorem tended_printer : Tended [] printer :=
  ((Tended.empty.serve (r := .addInterpreter "main" 1 {}) trivial rfl).serve
    (r := .register "main" Tool.print.callable) (Tool.proper_print []) rfl).serve
    (r := .register "main" Tool.twice.callable) (Tool.proper_twice []) rfl

theorem uniform_printer {r : Registry} (h : printer.Holds r) : r.Uniform := by
  rcases h with rfl | ⟨e, he, rfl⟩
  · nofun
  · obtain rfl := List.mem_singleton.mp he
    intro c hc
    have hmem : c ∈ [Tool.print.callable, Tool.twice.callable] := hc
    rcases List.mem_cons.mp hmem with rfl | hmem
    · exact Tool.uniform_print
    · rw [List.mem_singleton.mp hmem]
      exact Tool.uniform_twice

/-- The program is evaluated once, and calls remember the inner and the outer function. Its first
    statement runs in the scope of the program again, and a copy that is parsed now leaves the same
    as the program does. -/
theorem calls_lexically_scoped_hiding :
    ∃ p ws i env m copy ws', Tended [p] ws ∧ Request.Keeps [p] ws (.eval "main" p) ∧
      Evaluation.start ⟨"main", p, none⟩ ws = some (i, env, m) ∧ env.registry.Uniform ∧
      ws.world.calls ≠ [] ∧ ws.load innerAndOuter = (.ok copy, ws') ∧ copy.program ≠ p.program ∧
      (∃ s m', Eval.Reaches env (.block p) m env (.stmt p.program s) m' ∧ m'.ctx.lexical ≠ [] ∧
        (⟨p.program, m'.ctx.lexical, s⟩ : Place).In [p]) ∧
      (ws.serve (.eval "main" p)).any (fun x =>
        x.2.world.output = ["1", "2", "2", "1", "1", "2", "2", "1"]) = true ∧
      (ws.serve (.eval "main" p)).map (Evaluation.leaves ⟨"main", p, none⟩) =
        (ws'.serve (.eval "main" copy)).map (Evaluation.leaves ⟨"main", p, none⟩) := by
  have htest : ((printer.load innerAndOuter).1.toOption.any fun p =>
      ((printer.load innerAndOuter).2.serve (.eval "main" p)).any fun first =>
        decide (first.2.world.calls ≠ [] ∧ p.node.stmts ≠ []) &&
        (first.2.serve (.eval "main" p)).any (fun x =>
          x.2.world.output = ["1", "2", "2", "1", "1", "2", "2", "1"]) &&
        (Evaluation.start ⟨"main", p, none⟩ first.2).any fun start =>
          decide ((start.2.2.enterBlock p).ctx.isTerminated = false ∧
            (start.2.2.enterBlock p).ctx.lexical ≠ [])) = true := by
    decide +kernel
  generalize hload : printer.load innerAndOuter = loaded at htest
  obtain ⟨result, ws₁⟩ := loaded
  obtain ⟨p, rfl, hany⟩ := exists_ok_of_any htest
  obtain ⟨⟨a, ws⟩, hfirst, hany⟩ := (Option.any_eq_true _ _).mp hany
  rw [Bool.and_eq_true, Bool.and_eq_true, decide_eq_true_eq] at hany
  obtain ⟨⟨⟨hcalls, hstmts⟩, houtput⟩, hany⟩ := hany
  obtain ⟨⟨i, env, m⟩, hstart, hany⟩ := (Option.any_eq_true _ _).mp hany
  obtain ⟨ht, hlexical⟩ := of_decide_eq_true hany
  obtain ⟨hparse, -, rfl⟩ := Workspace.load_eq_ok hload
  have hkeeps : p ∈ [p] := List.mem_singleton_self p
  have htended : Tended [p] ws :=
    (tended_printer.load hload).serve (r := .eval "main" p) hkeeps hfirst
  -- evaluating changes no registry
  have huniform : env.registry.Uniform := by
    obtain ⟨i', henv, -⟩ := (Evaluation.starts hstart).ran
    rw [henv]
    rcases (Workspace.alters_serve hfirst).holds (ws.holds_registry i') with
      hold | heq | ⟨_, _, _, heq, -⟩ | ⟨_, _, _, heq, -⟩
    · exact uniform_printer hold
    · rw [heq]
      nofun
    · cases heq
    · cases heq
  have hcopy : ws.load innerAndOuter =
      (.ok ⟨ws.fresh, p.node⟩, { ws with fresh := ws.fresh + 1 }) := by
    rw [Workspace.load, hparse]
  have hnew : ws.fresh ≠ p.program := (Nat.ne_of_lt (htended.kept.bounded p hkeeps)).symm
  obtain ⟨hscoped, hcopied⟩ := calls_lexically_scoped htended
  obtain ⟨s, rest, hs⟩ := List.exists_cons_of_ne_nil hstmts
  have hreach : Eval.Reaches env (.block p) m env (.stmt p.program s)
      (Eval.offering p.program rest (m.enterBlock p)) := by
    refine .part .block ?_
    rw [hs]
    exact .part (.first ht) .here
  have hplace := (hscoped (.eval "main" p) _ _ _ _ _ _ _ hkeeps (Evaluation.starts hstart) hreach).1
  have hframe := (Context.framed_offer (m.enterBlock p).ctx (Eval.following p.program rest)).lexical
  have hstart' := hstart
  obtain ⟨i', hi, heq⟩ := Option.bind_eq_some_iff.mp hstart'
  cases heq
  have hsame := hcopied ⟨"main", p, none⟩ i _ _ _ _ ⟨ws.fresh, p.node⟩ i _ _ hkeeps hstart huniform
    (htended.load hcopy) rfl List.mem_cons_self (congrArg (Option.bind · _) hi)
    ⟨rfl, rfl, rfl, rfl, rfl, .inl rfl⟩
  exact ⟨p, ws, i, _, _, _, _, htended, hkeeps, hstart, huniform, hcalls, hcopy, hnew,
    ⟨s, _, hreach, hframe ▸ hlexical, hplace⟩, houtput, hsame⟩

end TierScript
