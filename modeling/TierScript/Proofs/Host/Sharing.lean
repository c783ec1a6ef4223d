import TierScript.Proofs.Host.Pools

/-!
# Session variables of a call

A script function is to use the session variables of its caller. It runs on a context from the pool,
and that context is chosen by the session of the caller and not by the variables that the caller
uses.

* `Machine.Lends`: the pool hands out a context with the variables of the caller.
* `calls_share_variables_iff`: the callee shares the session variables of its caller if and only if
  the pool lends them. Then it reads what the caller has written, and the caller reads afterwards
  what the callee has written. If no session is forgotten while there is a context of it, all calls
  share their variables.
* `call_of_forgotten_session`: otherwise some do not.
-/

namespace TierScript

/-! ## Variables of other names -/

theorem Vars.get_set_of_ne (vs : Vars) {x y : String} (value : Value) (h : y ≠ x) :
    (vs.set x value).get y = vs.get y := by
  have herase : (vs.erase x).get y = vs.get y := by
    rw [get, erase, lookup_filter_ne vs.entries h]
    rfl
  unfold set
  split
  · exact herase
  · rw [← herase, get, get, List.lookup_cons, beq_eq_false_iff_ne.mpr h]

theorem Stores.table_update (s : Stores) (id : StoreId) (f : Vars → Vars) (x : String)
    (h : ∀ vs, (f vs).get x = vs.get x) (other : StoreId) :
    ((s.update id f).table other).get x = (s.table other).get x := by
  unfold Stores.update Stores.table
  rw [Array.getElem?_modify]
  split
  · cases s.tables[other]? with
    | none => rfl
    | some vs => exact h vs
  · rfl

theorem Stores.table_obtain (s : Stores) (session : SessionId) (id : StoreId) :
    (s.obtain session).2.table id = s.table id := by
  unfold Stores.obtain Stores.table
  split
  · rfl
  · rw [Array.getElem?_push]
    split
    · next heq => rw [heq, Array.getElem?_size]; rfl
    · rfl

namespace Machine

variable {m m' : Machine}

theorem lookup_session (m : Machine) (x : String) :
    m.lookup ⟨.session, x⟩ = (m.world.stores.table m.ctx.store).get x := rfl

/-- Writing another variable does not change a session variable. -/
theorem lookup_write_of_ne (m : Machine) {v : Var} {x : String} (value : Value)
    (h : v ≠ ⟨.session, x⟩) :
    (m.write v value).lookup ⟨.session, x⟩ = m.lookup ⟨.session, x⟩ := by
  obtain ⟨tier, name⟩ := v
  cases tier with
  | loc => rfl
  | global => rfl
  | session =>
    have hne : x ≠ name := fun heq => h (heq ▸ rfl)
    exact Stores.table_update _ _ _ x (fun vs => vs.get_set_of_ne value hne) _

theorem lookup_copyBack {f : FnDef} {args : List Expr} (callee : Context) {x : String}
    {outs : List Nat} (m : Machine)
    (h : ∀ position ∈ outs, args[position]?.bind Expr.bareVar? ≠ some ⟨.session, x⟩) :
    (copyBack f args callee m outs).lookup ⟨.session, x⟩ = m.lookup ⟨.session, x⟩ := by
  induction outs generalizing m with
  | nil => rfl
  | cons position rest ih =>
    have hrest := fun p hp => h p (List.mem_cons_of_mem _ hp)
    rw [copyBack]
    split
    · next target param htarget _ =>
      have hne : target ≠ ⟨.session, x⟩ := by
        rintro rfl
        exact h position List.mem_cons_self htarget
      rw [ih _ hrest, lookup_write_of_ne m _ hne]
    · exact ih m hrest

/-! ## The variables of the callee -/

/-- The pool hands out a context with the session variables of the current one: the context on top
    was used for the same session and has them, or it was not, and they are the ones that the
    session has now. -/
def Lends (m : Machine) : Prop :=
  (∃ c, m.world.pool.idle.head? = some c ∧ c.session = m.ctx.session ∧ c.store = m.ctx.store) ∨
    (∀ c, m.world.pool.idle.head? = some c → c.session ≠ m.ctx.session) ∧
      (m.world.stores.obtain m.ctx.session).1 = m.ctx.store

theorem enterCall_store_eq_iff (m : Machine) (f : FnDef) (args : List Expr) :
    (m.enterCall f args).2.ctx.store = m.ctx.store ↔ m.Lends := by
  rw [enterCall_store]
  unfold Lends World.obtain Pool.obtain
  cases m.world.pool.idle with
  | nil => simp [Context.create]
  | cons c rest =>
    by_cases hs : c.session = m.ctx.session
    · simp [Context.rebind, hs]
    · simp [Context.rebind, hs]

theorem enterCall_table (m : Machine) (f : FnDef) (args : List Expr) (id : StoreId) :
    (m.enterCall f args).2.world.stores.table id = m.world.stores.table id := by
  show (m.world.obtain m.ctx.session).2.stores.table id = _
  unfold World.obtain Pool.obtain
  cases m.world.pool.idle with
  | nil => exact Stores.table_obtain _ _ _
  | cons c rest =>
    simp only [Context.rebind]
    split
    · rfl
    · exact Stores.table_obtain _ _ _

/-- If the pool is fresh and the caller uses the variables that its session has now, the callee gets
    the same ones. -/
theorem Sound.shares (h : m.Sound) (f : FnDef) (args : List Expr) :
    (m.enterCall f args).2.ctx.store = m.ctx.store := by
  have hcallee := enterCall_current h.fresh f args
  have hext : m.world.stores.Extends (m.enterCall f args).2.world.stores :=
    h.fresh.obtain_extends m.ctx.session
  have hcaller := h.current.mono hext
  rw [Context.Current, enterCall_session] at hcallee
  exact Option.some.inj (hcallee.symm.trans hcaller)

end Machine

/-! ## Calls that share their variables -/

namespace Eval

open Machine

variable {env : Env} {f : Linked FnDef} {args : List Expr} {m callee left : Machine}

/-- What the callee has written is what the caller reads afterwards, but for the variables that
    parameters are copied back to. -/
theorem Ends.shared {result : Except EvalError Unit}
    (hdeep : m.ctx.depth + 1 ≤ env.config.maxCallDepth)
    (henter : m.enterCall f.node args = (.ok (), callee)) (hstore : callee.ctx.store = m.ctx.store)
    (hbody : Ends (env.hold (.ofFunction f)) (.block ⟨f.program, f.node.body⟩) callee result left) :
    ∃ after, Ends env (.script f args) m result after ∧
      ∀ x, (∀ position ∈ f.node.outs, args[position]?.bind Expr.bareVar? ≠ some ⟨.session, x⟩) →
        after.lookup ⟨.session, x⟩ = left.lookup ⟨.session, x⟩ := by
  have hleft : left.ctx.store = m.ctx.store := hbody.restores.1.store.trans hstore
  have hcaller (x : String) : (⟨m.ctx, left.world⟩ : Machine).lookup ⟨.session, x⟩ =
      left.lookup ⟨.session, x⟩ := by
    rw [lookup_session, lookup_session, hleft]
  cases result with
  | error e => exact ⟨_, .bodyError hdeep henter hbody, fun x _ => hcaller x⟩
  | ok done =>
    refine ⟨_, .returned hdeep henter hbody, fun x hx => ?_⟩
    exact (lookup_copyBack left.ctx ⟨m.ctx, left.world⟩ hx).trans (hcaller x)

end Eval

namespace Workspace

open Machine

/-- At every call of a script function that comes up while a request is served, the callee uses the
    session variables of its caller if and only if the pool lends them; it does if no session was
    forgotten while there was a context of it. Then the callee starts with the values that the
    caller sees, and the caller sees the values that the callee leaves, but for the variables that
    parameters are copied back to. -/
theorem calls_share_variables_iff {rs : List Request} {answers : List Answer} {ws : Workspace}
    (hserved : ({} : Workspace).serveAll rs = some (answers, ws)) {r : Request} {env env' : Env}
    {j : Eval.Job} {m m' : Machine} (hstart : Starts ws r env j m) {f : Linked FnDef}
    {args : List Expr} (hreach : Eval.Reaches env j m env' (.script f args) m') :
    ((m'.enterCall f.node args).2.ctx.store = m'.ctx.store ↔ m'.Lends) ∧
    (keepsTo sparesContexts {} rs = true → m'.Lends) ∧
    (m'.Lends → ∀ x,
      (m'.enterCall f.node args).2.lookup ⟨.session, x⟩ = m'.lookup ⟨.session, x⟩) ∧
    (m'.Lends → ∀ callee result left, m'.ctx.depth + 1 ≤ env'.config.maxCallDepth →
      m'.enterCall f.node args = (.ok (), callee) →
      Eval.Ends (env'.hold (.ofFunction f)) (.block ⟨f.program, f.node.body⟩) callee result left →
      ∃ after, Eval.Ends env' (.script f args) m' result after ∧
        ∀ x, (∀ position ∈ f.node.outs, args[position]?.bind Expr.bareVar? ≠ some ⟨.session, x⟩) →
          after.lookup ⟨.session, x⟩ = left.lookup ⟨.session, x⟩) := by
  have hiff := m'.enterCall_store_eq_iff f.node args
  refine ⟨hiff, ?_, ?_, ?_⟩
  · intro hrule
    have hsound := hreach.sound ((serveAll_sound hserved hrule).starts hstart)
    exact hiff.mp (hsound.shares f.node args)
  · intro hlends x
    rw [lookup_session, lookup_session, hiff.mpr hlends, enterCall_table]
  · intro hlends callee result left hdeep henter hbody
    have hstore := hiff.mpr hlends
    rw [henter] at hstore
    exact Eval.Ends.shared hdeep henter hstore hbody

/-! ## A call that does not -/

/-- A context of session 1 with the name `c`, and then the given session is forgotten. -/
def bindThenForget (session : SessionId) : List Request :=
  [.addInterpreter "main" 1 {}, .register "main" Tool.print.callable, .newContext "c" 1,
    .clearSession session]

/-- Prints a session variable in a function, and one that the function has written. -/
def throughCall : Source := .ofString "p"
  "ss.x = 5 g() print(ss.y) fn g() print(ss.x) ss.y = 7 end fn"

/-- A function that gives the session variable `y` the value 7. -/
def setter : Linked FnDef :=
  ⟨9, ⟨"g", [], [], ⟨[.assign ⟨.session, "y"⟩ (.single ⟨.number 7, false, false, .first⟩) .first],
    [], .first⟩, .first⟩⟩

/-- After its session was forgotten, a context calls functions that use other session variables, and
    a program can see it. -/
theorem call_of_forgotten_session :
    (¬ ∀ rs answers ws r env j m env' f args m',
      ({} : Workspace).serveAll rs = some (answers, ws) → Starts ws r env j m →
      Eval.Reaches env j m env' (.script f args) m' →
      (m'.enterCall f.node args).2.ctx.store = m'.ctx.store) ∧
    ∃ b, parse throughCall = .ok b ∧
      printed (({} : Workspace).serveAll
        (bindThenForget 1 ++ [.evalWith "main" ⟨9, b⟩ "c", .drain])) = ["null", "null"] := by
  constructor
  · intro hall
    have htest : (({} : Workspace).serveAll (bindThenForget 1)).any (fun a =>
        (a.2.interpreters.lookup "main").any fun i => (a.2.contexts.lookup "c").any fun c =>
          (enterCall ⟨c, a.2.worldOf i⟩ setter.node []).2.ctx.store ≠ c.store) = true := by
      decide +kernel
    obtain ⟨⟨answers, ws⟩, hserved, hany⟩ := (Option.any_eq_true _ _).mp htest
    obtain ⟨i, hi, hany⟩ := (Option.any_eq_true _ _).mp hany
    obtain ⟨c, hc, hne⟩ := (Option.any_eq_true _ _).mp hany
    have hshares := hall _ _ _ _ _ _ _ _ setter [] _ hserved (.invokeScript hi hc) .here
    exact of_decide_eq_true hne hshares
  · have htest : (parse throughCall).toOption.any (fun b =>
        printed (({} : Workspace).serveAll
          (bindThenForget 1 ++ [.evalWith "main" ⟨9, b⟩ "c", .drain])) =
            ["null", "null"]) = true := by
      decide +kernel
    cases hp : parse throughCall with
    | error d => rw [hp] at htest; cases htest
    | ok b => rw [hp] at htest; exact ⟨b, rfl, of_decide_eq_true htest⟩

theorem ok_of_toBool {ε : Type} {result : Except ε Unit} (h : result.toBool = true) :
    result = .ok () := by
  cases result with
  | error e => cases h
  | ok done => rfl

/-- If another session is forgotten, a function reads what its caller has written, and the caller
    reads afterwards what the function has written. -/
theorem calls_share_variables_iff_setter :
    let rs := bindThenForget 2 ++ [.write "c" ⟨.session, "x"⟩ (.int 5)]
    keepsTo sparesContexts {} rs = true ∧
    ∃ answers ws i c, ({} : Workspace).serveAll rs = some (answers, ws) ∧
      ((enterCall ⟨c, ws.worldOf i⟩ setter.node []).2.lookup ⟨.session, "x"⟩).toInteger? = some 5 ∧
      ∃ after, Eval.Ends (ws.env i []) (.script setter []) ⟨c, ws.worldOf i⟩ (.ok ()) after ∧
        (after.lookup ⟨.session, "y"⟩).toInteger? = some 7 := by
  intro rs
  have hrule : keepsTo sparesContexts {} rs = true := by decide +kernel
  -- All that is needed of the workspace after the requests comes from one evaluation.
  have htest : (({} : Workspace).serveAll rs).any (fun a =>
      (a.2.interpreters.lookup "main").any fun i => (a.2.contexts.lookup "c").any fun c =>
        let m : Machine := ⟨c, a.2.worldOf i⟩
        (m.lookup ⟨.session, "x"⟩).toInteger? = some 5 ∧ c.depth + 1 ≤ i.config.maxCallDepth ∧
        (m.enterCall setter.node []).1.toBool ∧
        (Eval.block ((a.2.env i []).hold (.ofFunction setter)) 9 ⟨9, setter.node.body⟩
          (m.enterCall setter.node []).2).any fun e =>
            e.1.toBool && (e.2.lookup ⟨.session, "y"⟩).toInteger? = some 7) = true := by
    decide +kernel
  obtain ⟨⟨answers, ws⟩, hserved, hany⟩ := (Option.any_eq_true _ _).mp htest
  obtain ⟨i, hi, hany⟩ := (Option.any_eq_true _ _).mp hany
  obtain ⟨c, hc, hany⟩ := (Option.any_eq_true _ _).mp hany
  obtain ⟨hx, hdeep, hbound, hany⟩ := of_decide_eq_true hany
  obtain ⟨⟨result, left⟩, hblock, hy⟩ := (Option.any_eq_true _ _).mp hany
  have hstart : Starts ws (.invoke "main" (.script setter) [] "c") (ws.env i []) (.script setter [])
      ⟨c, ws.worldOf i⟩ := .invokeScript hi hc
  obtain ⟨-, hlends, hreads, hwrites⟩ := calls_share_variables_iff hserved hstart .here
  refine ⟨hrule, answers, ws, i, c, hserved, ?_, ?_⟩
  · rw [hreads (hlends hrule)]
    exact hx
  · have henter : enterCall ⟨c, ws.worldOf i⟩ setter.node [] =
        (.ok (), (enterCall ⟨c, ws.worldOf i⟩ setter.node []).2) :=
      Prod.ext (ok_of_toBool hbound) rfl
    obtain ⟨hok, hseven⟩ := Bool.and_eq_true_iff.mp hy
    obtain ⟨after, hends, hshared⟩ :=
      hwrites (hlends hrule) _ result left hdeep henter (Eval.Ends.of_block hblock)
    refine ⟨after, ok_of_toBool hok ▸ hends, ?_⟩
    rw [hshared "y" (fun _ h => nomatch h)]
    exact of_decide_eq_true hseven

end Workspace

end TierScript
