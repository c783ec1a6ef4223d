import Mathlib.Data.List.Forall2
import TierScript.Proofs.Host.Backing

/-!
# What a call does to its caller

A call of a script function changes the context of its caller only where parameters are copied back,
and not at all if it fails.

* `Vars.setAll` and `Machine.writeAll`: values given to variables one after another, where the last
  value of a variable counts.
* `bindArguments_ok`: the parameters are bound to the values that the caller sees.
* `Machine.results`: what a call copies back, and to which variables. `copyBack_eq_writeAll`: the
  copying is nothing else.
* `call_touches_results_only`: the context of the caller after a call, and the context on which the
  body starts, whatever the body does and wherever that context was used before.
-/

namespace TierScript

/-! ## Values given one after another -/

/-- Of all values that are written under a key, the last one is read. -/
theorem read_foldl {σ κ β γ : Type} [DecidableEq κ] {write : σ → κ × β → σ} (read : σ → γ)
    (shown : β → γ) (p : σ → Prop) {k : κ} (hwrite : ∀ s e, p s → p (write s e))
    (hread : ∀ s e, p s → read (write s e) = if k = e.1 then shown e.2 else read s)
    (l : List (κ × β)) {s : σ} (hs : p s) :
    read (l.foldl write s) = ((l.reverse.lookup k).map shown).getD (read s) := by
  induction l generalizing s with
  | nil => rfl
  | cons e l ih =>
    rw [List.foldl_cons, ih (hwrite s e hs), hread s e hs, List.reverse_cons, List.lookup_append]
    cases l.reverse.lookup k with
    | some b => rfl
    | none =>
      by_cases h : k = e.1
      · subst h
        rw [Option.none_or, List.lookup_cons_self, if_pos rfl]
        rfl
      · rw [Option.none_or, List.lookup_cons, beq_eq_false_iff_ne.mpr h, if_neg h]
        rfl

theorem lookup_eq_none_of_ne {κ β : Type} [DecidableEq κ] {l : List (κ × β)} {k : κ}
    (h : ∀ e ∈ l, e.1 ≠ k) : l.lookup k = none := by
  rw [List.lookup_eq_none_iff]
  exact fun e he => bne_iff_ne.mpr (Ne.symm (h e he))

namespace Vars

/-- Gives variables values, in order. -/
def setAll (vs : Vars) (l : List (String × Value)) : Vars :=
  l.foldl (fun vs e => vs.set e.1 e.2) vs

variable (vs : Vars) (x y : String) (value : Value)

theorem get_erase_self : (vs.erase x).get x = .null := by
  have hnone : (vs.erase x).entries.lookup x = none :=
    lookup_eq_none_of_ne fun e he => bne_iff_ne.mp (List.mem_filter.mp he).2
  rw [get, hnone]
  rfl

theorem get_set : (vs.set x value).get y = if y = x then value else vs.get y := by
  by_cases h : y = x
  · subst h
    rw [if_pos rfl, set]
    split
    · next hnull =>
      cases value with
      | null => exact vs.get_erase_self y
      | bool | int | float | str | array => cases hnull
    · simp [get]
  · rw [if_neg h, vs.get_set_of_ne value h]

theorem contains_erase : (vs.erase x).contains y = (vs.contains y && y != x) := by
  rw [contains, erase, List.any_filter, contains, Bool.eq_iff_iff]
  simp only [Bool.and_eq_true, List.any_eq_true, bne_iff_ne, beq_iff_eq]
  constructor
  · rintro ⟨e, he, hne, rfl⟩
    exact ⟨⟨e, he, rfl⟩, hne⟩
  · rintro ⟨⟨e, he, rfl⟩, hne⟩
    exact ⟨e, he, hne, rfl⟩

theorem contains_set :
    (vs.set x value).contains y = if y = x then !value.isNull else vs.contains y := by
  have hcons (hnull : value.isNull = false) : (vs.set x value).contains y =
      (x == y || (vs.erase x).contains y) := by
    rw [set, if_neg (by simp [hnull])]
    rfl
  cases hnull : value.isNull with
  | true =>
    rw [set, if_pos hnull, contains_erase]
    by_cases h : y = x <;> simp [h]
  | false =>
    rw [hcons hnull, contains_erase]
    by_cases h : y = x
    · simp [h]
    · have hbeq : (x == y) = false := beq_eq_false_iff_ne.mpr (Ne.symm h)
      simp [h, hbeq]

variable (l : List (String × Value))

theorem get_setAll : (vs.setAll l).get x = (l.reverse.lookup x).getD (vs.get x) := by
  have hread := read_foldl (fun vs : Vars => vs.get x) id (fun _ => True)
    (fun _ _ _ => trivial) (fun vs e _ => vs.get_set e.1 x e.2) l (s := vs) trivial
  rwa [Option.map_id] at hread

theorem contains_setAll : (vs.setAll l).contains x =
    ((l.reverse.lookup x).map fun value => !value.isNull).getD (vs.contains x) :=
  read_foldl (fun vs : Vars => vs.contains x) (fun value : Value => !value.isNull) (fun _ => True)
    (fun _ _ _ => trivial) (fun vs e _ => vs.contains_set e.1 x e.2) l trivial

end Vars

namespace Machine

/-- Gives variables of any tier values, in order. -/
def writeAll (m : Machine) (l : List (Var × Value)) : Machine :=
  l.foldl (fun m e => m.write e.1 e.2) m

variable {m m' callee : Machine}

/-- What is written is read, and no other variable changes. -/
theorem lookup_write (m : Machine) (v : Var) (value : Value) {x : Var}
    (hx : x.tier = .session → m.Backed) :
    (m.write v value).lookup x = if x = v then value else m.lookup x := by
  obtain ⟨tier, name⟩ := v
  obtain ⟨tier', name'⟩ := x
  cases tier' with
  | loc =>
    cases tier with
    | loc => simp [write, Context.write, Context.setLocal, lookup, Context.read, Vars.get_set]
    | session | global => simp [write, Context.write, lookup, Context.read]
  | session =>
    cases tier with
    | session =>
      have htable := Stores.table_update_self (fun vars => vars.set name value) (hx rfl)
      simp [write, Context.write, lookup, Context.read, htable, Vars.get_set]
    | loc => simp [write, Context.write, Context.setLocal, lookup, Context.read]
    | global => simp [write, Context.write, lookup, Context.read, Stores.table]
  | global =>
    cases tier with
    | global => simp [write, Context.write, lookup, Context.read, Vars.get_set]
    | loc => simp [write, Context.write, Context.setLocal, lookup, Context.read]
    | session => simp [write, Context.write, lookup, Context.read, Stores.update]

theorem contains_write (m : Machine) (v : Var) (value : Value) (x : String) :
    (m.write v value).ctx.locals.contains x =
      if (⟨.loc, x⟩ : Var) = v then !value.isNull else m.ctx.locals.contains x := by
  obtain ⟨tier, name⟩ := v
  cases tier with
  | loc => simp [write, Context.write, Context.setLocal, Vars.contains_set]
  | session | global => simp [write, Context.write]

theorem lookup_writeAll (m : Machine) (l : List (Var × Value)) {v : Var}
    (hv : v.tier = .session → m.Backed) :
    (m.writeAll l).lookup v = (l.reverse.lookup v).getD (m.lookup v) := by
  have hread := read_foldl (fun m : Machine => m.lookup v) id
    (fun m => v.tier = .session → m.Backed) (fun _ e hm hs => (hm hs).write e.1 e.2)
    (fun m e hm => lookup_write m e.1 e.2 hm) l (s := m) hv
  rwa [Option.map_id] at hread

theorem contains_writeAll (m : Machine) (l : List (Var × Value)) (x : String) :
    (m.writeAll l).ctx.locals.contains x =
      ((l.reverse.lookup ⟨.loc, x⟩).map fun value => !value.isNull).getD
        (m.ctx.locals.contains x) :=
  read_foldl (fun m : Machine => m.ctx.locals.contains x) (fun value : Value => !value.isNull)
    (fun _ => True)
    (fun _ _ _ => trivial) (fun m e _ => m.contains_write e.1 e.2 x) l trivial

/-! ## Binding the arguments -/

/-- The parameters of a call with the values of their arguments. -/
def Binds (lookup : Var → Value) (bindings : List (String × Expr))
    (bound : List (String × Value)) : Prop :=
  List.Forall₂ (fun b r => r.1 = b.1 ∧ b.2.eval lookup = .ok r.2) bindings bound

theorem bindArguments_ok {lookup : Var → Value} {bindings : List (String × Expr)}
    {c c' : Context} (h : bindArguments lookup c bindings = (.ok (), c')) :
    ∃ bound, Binds lookup bindings bound ∧ c' = { c with locals := c.locals.setAll bound } := by
  induction bindings generalizing c with
  | nil =>
    cases h
    exact ⟨[], .nil, rfl⟩
  | cons binding rest ih =>
    obtain ⟨param, arg⟩ := binding
    rw [bindArguments] at h
    split at h
    · next value hvalue =>
      obtain ⟨bound, hbound, rfl⟩ := ih h
      exact ⟨(param, value) :: bound, .cons ⟨rfl, hvalue⟩ hbound, rfl⟩
    · cases h

/-- A context from a pool of cleared contexts has a session and its variables, and nothing else. -/
theorem obtain_cleared {w : World} (h : w.pool.Cleared) (session : SessionId) :
    (w.obtain session).1 = { session, store := (w.obtain session).1.store } := by
  unfold World.obtain Pool.obtain
  cases hidle : w.pool.idle with
  | nil => rfl
  | cons c rest =>
    have hc : c.reset = c := h c (by rw [hidle]; exact List.mem_cons_self)
    simp only [Context.rebind]
    split
    · next hs => exact hs ▸ hc.symm
    · rw [← hc]
      rfl

/-- Taking a context from the pool changes no variable. -/
theorem lookup_obtain (m : Machine) (session : SessionId) :
    Machine.lookup { m with world := (m.world.obtain session).2 } = m.lookup := by
  have hglobal : (m.world.obtain session).2.stores.global = m.world.stores.global := by
    rcases m.world.obtain_cases session with ⟨-, -, -, hstores⟩ | ⟨-, hstores⟩
    · rw [hstores]
    · rw [hstores]
      unfold Stores.obtain
      split <;> rfl
  have htable (id : StoreId) :
      (m.world.obtain session).2.stores.table id = m.world.stores.table id := by
    rcases m.world.obtain_cases session with ⟨-, -, -, hstores⟩ | ⟨-, hstores⟩
    · rw [hstores]
    · rw [hstores, Stores.table_obtain]
  funext v
  unfold lookup Context.read
  cases v.tier with
  | loc => rfl
  | session => exact congrArg (·.get v.name) (htable _)
  | global => exact congrArg (·.get v.name) hglobal

/-- The body starts with the values of the arguments and with nothing else, one call deeper. -/
theorem enterCall_ok (hpool : m.world.pool.Cleared) {f : FnDef} {args : List Expr}
    (h : m.enterCall f args = (.ok (), callee)) :
    ∃ bound, Binds m.lookup (f.params.zip args) bound ∧
      callee.ctx = { session := m.ctx.session, store := callee.ctx.store,
                     locals := Vars.setAll {} bound, depth := m.ctx.depth + 1 } := by
  have hstore := m.enterCall_store f args
  rw [h] at hstore
  have hbind : bindArguments (Machine.lookup { m with world := (m.world.obtain m.ctx.session).2 })
      { (m.world.obtain m.ctx.session).1 with depth := m.ctx.depth + 1 } (f.params.zip args) =
        (.ok (), callee.ctx) :=
    congrArg (fun e => (e.1, e.2.ctx)) h
  rw [lookup_obtain, obtain_cleared hpool, ← hstore] at hbind
  obtain ⟨bound, hbound, hctx⟩ := bindArguments_ok hbind
  exact ⟨bound, hbound, hctx⟩

/-! ## Copying back -/

/-- What a call copies back: the values that the callee leaves in the marked parameters, for those
    arguments that are variables, in the order of the marks. -/
def results (f : FnDef) (args : List Expr) (callee : Context) (outs : List Nat) :
    List (Var × Value) :=
  outs.filterMap fun position =>
    match args[position]?.bind Expr.bareVar?, f.params[position]? with
    | some target, some param => some (target, callee.locals.get param)
    | _, _ => none

theorem copyBack_eq_writeAll (f : FnDef) (args : List Expr) (c : Context) (outs : List Nat)
    (m : Machine) : copyBack f args c m outs = m.writeAll (results f args c outs) := by
  induction outs generalizing m with
  | nil => rfl
  | cons position rest ih =>
    rw [copyBack]
    split
    · next target param htarget hparam =>
      have hresults : results f args c (position :: rest) =
          (target, c.locals.get param) :: results f args c rest := by
        simp only [results, List.filterMap_cons, htarget, hparam]
      rw [ih, hresults]
      rfl
    · next hnone =>
      have hresults : results f args c (position :: rest) = results f args c rest := by
        simp only [results, List.filterMap_cons]
      rw [ih, hresults]

/-- The context and the variables that a call leaves: giving the context of the callee back to the
    pool changes neither. -/
theorem leaveCall_ctx (m : Machine) (caller : Context) (f : FnDef) (args : List Expr) :
    (m.leaveCall caller f args).ctx =
      (writeAll ⟨caller, m.world⟩ (results f args m.ctx f.outs)).ctx := by
  rw [← copyBack_eq_writeAll]
  rfl

theorem leaveCall_lookup (m : Machine) (caller : Context) (f : FnDef) (args : List Expr) :
    (m.leaveCall caller f args).lookup =
      (writeAll ⟨caller, m.world⟩ (results f args m.ctx f.outs)).lookup := by
  rw [← copyBack_eq_writeAll]
  rfl

/-- The last mark of a variable counts. -/
theorem lookup_results {f : FnDef} {args : List Expr} (c : Context) {outs : List Nat}
    (hsorted : outs.Pairwise (· < ·)) {position : Nat} (hposition : position ∈ outs) {v : Var}
    {param : String} (hv : args[position]?.bind Expr.bareVar? = some v)
    (hparam : f.params[position]? = some param)
    (hlast : ∀ later ∈ outs, position < later → later < f.params.length →
      args[later]?.bind Expr.bareVar? ≠ some v) :
    (results f args c outs).reverse.lookup v = some (c.locals.get param) := by
  obtain ⟨before, after, rfl⟩ := List.append_of_mem hposition
  obtain ⟨-, hafter, -⟩ := List.pairwise_append.mp hsorted
  have hlater : ∀ e ∈ results f args c after, e.1 ≠ v := by
    rintro e he rfl
    obtain ⟨later, hmem, heq⟩ := List.mem_filterMap.mp he
    split at heq
    · next target param' htarget hparam' =>
      cases heq
      have hlt := (List.pairwise_cons.mp hafter).1 later hmem
      have hbound := (List.getElem?_eq_some_iff.mp hparam').1
      exact hlast later (List.mem_append_right _ (List.mem_cons_of_mem _ hmem)) hlt hbound htarget
    · cases heq
  have hnone : (results f args c after).reverse.lookup v = none :=
    lookup_eq_none_of_ne fun e he => hlater e (List.mem_reverse.mp he)
  have hsplit : results f args c (before ++ position :: after) =
      results f args c before ++ (v, c.locals.get param) :: results f args c after := by
    simp [results, hv, hparam]
  rw [hsplit, List.reverse_append, List.reverse_cons, List.lookup_append, List.lookup_append, hnone]
  simp

end Machine

namespace Workspace

open Machine Eval

/-- If a call fails, the context of the caller is what it was. If it returns, nothing has changed in
    the context but its variables, and of these only the targets of marked parameters: they have the
    values that the body has left in the parameters, and are gone where these are null. Of several
    marks with one target the last counts. Wherever the call comes up after any requests, the caller
    refers to session variables that exist, and the body starts with the values that the caller sees
    for the arguments, and with nothing else. -/
theorem call_touches_results_only (env : Env) (f : Linked FnDef) (args : List Expr) (m : Machine) :
    (∀ e after, Ends env (.script f args) m (.error e) after → after.ctx = m.ctx) ∧
    (∀ after, Ends env (.script f args) m (.ok ()) after → ∃ callee left,
      Enters env (.script f args) m
        (env.hold (.ofFunction f)) (.block ⟨f.program, f.node.body⟩) callee ∧
      Ends (env.hold (.ofFunction f)) (.block ⟨f.program, f.node.body⟩) callee (.ok ()) left ∧
      let back := (results f.node args left.ctx f.node.outs).reverse
      after.ctx = { m.ctx with locals := after.ctx.locals } ∧
      (∀ x, after.ctx.locals.get x = (back.lookup ⟨.loc, x⟩).getD (m.ctx.locals.get x) ∧
        after.ctx.locals.contains x = ((back.lookup ⟨.loc, x⟩).map fun value => !value.isNull).getD
          (m.ctx.locals.contains x)) ∧
      (∀ v : Var, (v.tier = .session → m.Backed) →
        after.lookup v = (back.lookup v).getD (Machine.lookup ⟨m.ctx, left.world⟩ v)) ∧
      (f.node.outs.Pairwise (· < ·) → ∀ position ∈ f.node.outs, ∀ v param,
        args[position]?.bind Expr.bareVar? = some v → f.node.params[position]? = some param →
        (∀ later ∈ f.node.outs, position < later → later < f.node.params.length →
          args[later]?.bind Expr.bareVar? ≠ some v) →
        back.lookup v = some (left.ctx.locals.get param))) ∧
    (∀ rs answers ws r env₀ j m₀, ({} : Workspace).serveAll rs = some (answers, ws) →
      Starts ws r env₀ j m₀ → Reaches env₀ j m₀ env (.script f args) m →
      m.Backed ∧ ∀ env' j' callee, Enters env (.script f args) m env' j' callee →
        j' = .block ⟨f.program, f.node.body⟩ ∧ ∃ bound,
          Binds m.lookup (f.node.params.zip args) bound ∧
          callee.ctx = { session := m.ctx.session, store := callee.ctx.store,
                         locals := callee.ctx.locals, depth := m.ctx.depth + 1 } ∧
          ∀ x, callee.ctx.locals.get x = (bound.reverse.lookup x).getD .null ∧
            callee.ctx.locals.contains x = !(callee.ctx.locals.get x).isNull) := by
  refine ⟨?_, ?_, ?_⟩
  · intro e after hends
    cases hends <;> rfl
  · intro after hends
    cases hends with
    | @returned _ _ _ _ callee left hdeep henter hbody =>
      refine ⟨callee, left, .body hdeep henter, hbody, ?_⟩
      have hgrown := (World.tracks_adds.enterCall henter).trans (World.tracks_adds.ends hbody)
      have hsize := hgrown.size
      have hlookup (v : Var) (hv : v.tier = .session → m.Backed) :
          (left.leaveCall m.ctx f.node args).lookup v =
            ((results f.node args left.ctx f.node.outs).reverse.lookup v).getD
              (Machine.lookup ⟨m.ctx, left.world⟩ v) := by
        have hback (hsession : v.tier = .session) : Machine.Backed ⟨m.ctx, left.world⟩ :=
          Nat.lt_of_lt_of_le (hv hsession) hsize
        rw [leaveCall_lookup, lookup_writeAll _ _ hback]
      refine ⟨?_, fun x => ⟨hlookup ⟨.loc, x⟩ nofun, ?_⟩, hlookup, ?_⟩
      · have hcontrol := left.leaveCall_control m.ctx f.node args
        exact congrArg (fun c : Context =>
          { c with locals := (left.leaveCall m.ctx f.node args).ctx.locals }) hcontrol
      · rw [leaveCall_ctx]
        exact contains_writeAll _ _ x
      · intro hsorted position hposition v param hv hparam hlast
        exact lookup_results left.ctx hsorted hposition hv hparam hlast
  · intro rs answers ws r env₀ j m₀ hserved hstart hreach
    refine ⟨backed_of_reaches hserved hstart hreach, fun env' j' callee henters => ?_⟩
    cases henters with
    | body hdeep henter =>
      have hpool := (serveAll_cleared hserved).takes (.call hstart hreach hdeep)
      obtain ⟨bound, hbound, hctx⟩ := enterCall_ok hpool henter
      have hlocals : callee.ctx.locals = Vars.setAll {} bound := congrArg Context.locals hctx
      refine ⟨rfl, bound, hbound, hlocals ▸ hctx, fun x => ?_⟩
      have hget : callee.ctx.locals.get x = (bound.reverse.lookup x).getD .null := by
        rw [hlocals]
        exact Vars.get_setAll {} x bound
      refine ⟨hget, ?_⟩
      rw [hget, hlocals, Vars.contains_setAll]
      cases bound.reverse.lookup x <;> rfl

/-- The variable of a context with the given name, as an operand. -/
def ownVar (name : String) : Term := ⟨.var ⟨.loc, name⟩, false, false, .first⟩

/-- Exchanges two variables with the help of a third one, and then stops the context it runs on. -/
def swap : Linked FnDef :=
  ⟨9, ⟨"swap", ["a", "b"], [0, 1],
    ⟨[.assign ⟨.loc, "t"⟩ (.single (ownVar "a")) .first,
      .assign ⟨.loc, "a"⟩ (.single (ownVar "b")) .first,
      .assign ⟨.loc, "b"⟩ (.single (ownVar "t")) .first, .endCode .first], [], .first⟩, .first⟩⟩

/-- A context with the variable `x`. -/
def threeInX : List Request :=
  [.addInterpreter "main" 1 {}, .newContext "c" 1, .write "c" ⟨.loc, "x"⟩ (.int 3)]

/-- After `swap(s.x, s.y)` the caller has in `x` and `y` what the body has left in `a` and `b`. It
    has no `t`, and it is not stopped. A division by zero as an argument leaves the caller as it
    was. -/
theorem call_touches_results_only_swap :
    ∃ answers ws i c, ({} : Workspace).serveAll threeInX = some (answers, ws) ∧
      (∃ after callee left,
        Ends (ws.env i []) (.script swap [.single (ownVar "x"), .single (ownVar "y")])
          ⟨c, ws.worldOf i⟩ (.ok ()) after ∧
        Ends ((ws.env i []).hold (.ofFunction swap)) (.block ⟨9, swap.node.body⟩) callee (.ok ())
          left ∧
        callee.ctx.depth = 1 ∧ callee.ctx.earlyExit = false ∧
        after.ctx.locals.get "y" = left.ctx.locals.get "b" ∧
        after.ctx.locals.contains "x" = !(left.ctx.locals.get "a").isNull ∧
        after.ctx.locals.contains "t" = false ∧ after.ctx.isTerminated = false) ∧
      ∃ e after, Ends (ws.env i [])
          (.script swap [⟨[ownVar "x", ownVar "y"], [.div], .first⟩]) ⟨c, ws.worldOf i⟩
          (.error e) after ∧ after.ctx = c := by
  have htest : (({} : Workspace).serveAll threeInX).any (fun a =>
      (a.2.interpreters.lookup "main").any fun i => (a.2.contexts.lookup "c").any fun c =>
        (c.isTerminated = false ∧ c.locals.contains "t" = false ∧ c.depth = 0) ∧
        ((Eval.script (a.2.env i []) 9 swap [.single (ownVar "x"), .single (ownVar "y")]
          ⟨c, a.2.worldOf i⟩).any fun e => e.1.toBool) ∧
        (Eval.script (a.2.env i []) 9 swap [⟨[ownVar "x", ownVar "y"], [.div], .first⟩]
          ⟨c, a.2.worldOf i⟩).any fun e => !e.1.toBool) = true := by
    decide +kernel
  obtain ⟨⟨answers, ws⟩, hserved, hany⟩ := (Option.any_eq_true _ _).mp htest
  obtain ⟨i, hi, hany⟩ := (Option.any_eq_true _ _).mp hany
  obtain ⟨c, hc, hany⟩ := (Option.any_eq_true _ _).mp hany
  obtain ⟨⟨hrunning, ht, hdepth⟩, hswap, hdiv⟩ := of_decide_eq_true hany
  refine ⟨answers, ws, i, c, hserved, ?_, ?_⟩
  · obtain ⟨⟨result, after⟩, hrun, hok⟩ := (Option.any_eq_true _ _).mp hswap
    obtain rfl := ok_of_toBool hok
    have hends := Ends.of_script hrun
    obtain ⟨-, hreturned, hstarts⟩ := call_touches_results_only (ws.env i []) swap
      [.single (ownVar "x"), .single (ownVar "y")] ⟨c, ws.worldOf i⟩
    obtain ⟨callee, left, henters, hbody, hctx, hlocals, -, hwins⟩ := hreturned after hends
    obtain ⟨-, hbodies⟩ := hstarts _ _ _ _ _ _ _ hserved (.invokeScript hi hc) .here
    obtain ⟨-, bound, -, hcallee, -⟩ := hbodies _ _ _ henters
    have hlast := hwins (by decide) 1 (by decide) ⟨.loc, "y"⟩ "b" rfl rfl (by decide)
    have hy := (hlocals "y").1
    rw [hlast] at hy
    refine ⟨after, callee, left, hends, hbody, ?_, ?_, hy, (hlocals "x").2, ?_, ?_⟩
    · rw [hcallee]
      exact congrArg (· + 1) hdepth
    · rw [hcallee]
    · exact (hlocals "t").2.trans ht
    · rw [hctx]
      exact hrunning
  · obtain ⟨⟨result, after⟩, hrun, herror⟩ := (Option.any_eq_true _ _).mp hdiv
    cases result with
    | ok => cases herror
    | error e =>
      have hends := Ends.of_script hrun
      exact ⟨e, after, hends, (call_touches_results_only (ws.env i []) swap
        [⟨[ownVar "x", ownVar "y"], [.div], .first⟩] ⟨c, ws.worldOf i⟩).1 e after hends⟩

end Workspace

end TierScript
