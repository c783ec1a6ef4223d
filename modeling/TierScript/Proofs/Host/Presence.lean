import TierScript.Proofs.Host.Writes

/-!
# No variable holds null

Writing null removes a variable, so a variable that is there has another value. This is done in two
places, for the variables of a context and for those that contexts share, and everything that gives
variables values goes through one of them.

* `Request.WritesOnly`: a host changes variables by writing them only.
* `Workspace.Written`: all variables of a workspace were written. It is so after every history of
  such requests (`Written.serveAll`).
* `Workspace.Coexist`: the contexts that are there at a moment, with the variables that they share.
* `null_is_absence`: none of these variables is null, so that a variable is there if and only if it
  is read as something else; what is written is read by all that share it, and nothing else changes.
-/

namespace TierScript

theorem Value.eq_null_of_isNull {value : Value} (h : value.isNull = true) : value = .null := by
  cases value with
  | null => rfl
  | bool | int | float | str | array => cases h

/-! ## Variables as a context sees them -/

namespace Context

/-- The variables of a tier, as a context sees them. -/
def vars (c : Context) (s : Stores) : Tier → Vars
  | .loc => c.locals
  | .session => s.table c.store
  | .global => s.global

/-- Another context sees the variables of a tier that a context writes. Nobody else sees its own. -/
def Shares (d c : Context) : Tier → Prop
  | .loc => False
  | .session => d.store = c.store
  | .global => True

instance (d c : Context) : (tier : Tier) → Decidable (d.Shares c tier)
  | .loc => inferInstanceAs (Decidable False)
  | .session => inferInstanceAs (Decidable (d.store = c.store))
  | .global => inferInstanceAs (Decidable True)

theorem read_eq_get (c : Context) (s : Stores) (v : Var) :
    c.read s v = (c.vars s v.tier).get v.name := by
  unfold Context.read vars
  cases v.tier <;> rfl

variable {c : Context} {s : Stores}

/-- The context that writes reads what it has written. -/
theorem read_write_self (hc : c.store < s.tables.size) (v : Var) (value : Value) (x : Var) :
    (c.write s v value).1.read (c.write s v value).2 x = if x = v then value else c.read s x :=
  Machine.lookup_write ⟨c, { stores := s }⟩ v value fun _ => hc

theorem vars_write (hc : c.store < s.tables.size) (v : Var) (value : Value) (d : Context)
    (tier : Tier) : d.vars (c.write s v value).2 tier =
      if tier = v.tier ∧ d.Shares c v.tier then (d.vars s tier).set v.name value
      else d.vars s tier := by
  obtain ⟨written, name⟩ := v
  cases written with
  | loc => simp [Context.write, Shares]
  | global => cases tier <;> simp [Context.write, Shares, vars, Stores.table]
  | session =>
    cases tier with
    | loc | global => simp [Context.write, vars, Stores.update]
    | session =>
      by_cases hshared : d.store = c.store
      · simp [Context.write, Shares, vars, hshared, Stores.table_update_self _ hc]
      · simp [Context.write, Shares, vars, hshared, Stores.table_update_ne _ hshared]

/-- Another context reads what was written if it shares the variable. -/
theorem read_write (hc : c.store < s.tables.size) (v : Var) (value : Value) (d : Context)
    (x : Var) : d.read (c.write s v value).2 x =
      if x = v ∧ d.Shares c v.tier then value else d.read s x := by
  obtain ⟨written, name⟩ := v
  obtain ⟨tier, name'⟩ := x
  rw [read_eq_get, read_eq_get, vars_write hc]
  by_cases hshared : tier = written ∧ d.Shares c written
  · simp [hshared, Vars.get_set]
  · rw [if_neg hshared, if_neg]
    rintro ⟨heq, hd⟩
    exact hshared ⟨congrArg Var.tier heq, hd⟩

end Context

/-! ## Requests -/

/-- A host changes variables by writing them and by removing all of them. -/
def Request.WritesOnly : Request → Prop
  | .adjust _ f => ∀ c : Context, c.locals.Wrote (f c).locals
  | .sessionVars _ f | .globalVars f => ∀ vs : Vars, vs.Wrote (f vs)
  | _ => True

namespace Workspace

open Eval

/-- All variables of a workspace were written. -/
structure Written (ws : Workspace) : Prop where
  stores : Stores.Wrote {} ws.world.stores
  contexts : ∀ x ∈ ws.contexts, Vars.Wrote {} x.2.locals

variable {ws ws' : Workspace}

namespace Written

theorem lookup (h : ws.Written) {context : String} {c : Context}
    (hc : ws.contexts.lookup context = some c) : Vars.Wrote {} c.locals :=
  h.contexts _ (mem_of_lookup hc)

theorem withStores (h : ws.Written) {stores : Stores} (hs : ws.world.stores.Wrote stores) :
    (ws.withStores stores).Written := ⟨h.stores.trans hs, h.contexts⟩

theorem setContext (h : ws.Written) (name : String) {c : Context} (hc : Vars.Wrote {} c.locals) :
    (ws.setContext name c).Written where
  stores := h.stores
  contexts x hx := by
    rcases Named.mem_put hx with rfl | hx
    · exact hc
    · exact h.contexts x hx

/-- What a request may do, it does by writing variables. -/
theorem serve (h : ws.Written) {r : Request} {a : Answer} (hr : r.WritesOnly)
    (hserve : ws.serve r = some (a, ws')) : ws'.Written := by
  cases effect_serve hserve with
  | nothing _ hs hc => exact ⟨hs ▸ h.stores, hc ▸ h.contexts⟩
  | run hw => exact ⟨h.stores.trans (hw World.tracks_wrote), h.contexts⟩
  | @runOn _ i _ _ context c w _ c' w' hc hw hends =>
    have hstores := (hw World.tracks_wrote).trans (World.tracks_wrote.ends hends)
    have hadopted : (ws.adopt i w').Written := ⟨h.stores.trans hstores, h.contexts⟩
    exact hadopted.setContext context ((h.lookup hc).trans hends.wrote)
  | @created name session =>
    have hmade := h.withStores (ws.world.stores.wrote_obtain session)
    exact hmade.setContext name (.refl _)
  | derived hc =>
    have hcopy := h.lookup hc
    exact h.setContext _ hcopy
  | adjusted hc =>
    have hadjusted := (h.lookup hc).trans (hr _)
    exact h.setContext _ hadjusted
  | @written context v value c hc =>
    have hwritten := h.withStores (c.write_wrote_stores ws.world.stores v value)
    have hlocals := c.write_wrote_locals ws.world.stores v value
    exact hwritten.setContext context ((h.lookup hc).trans hlocals)
  | @sessionVars session f =>
    have hmade := ws.world.stores.wrote_obtain session
    exact h.withStores (hmade.trans (Stores.wrote_update _ _ hr))
  | globalVars => exact h.withStores ⟨hr _, fun _ => .refl _⟩
  | @cleared session =>
    have hforgotten : ws.world.stores.Wrote (ws.world.stores.forget session).2 :=
      ⟨.refl _, fun _ => .refl _⟩
    have hcleared := h.withStores hforgotten
    unfold Workspace.clearSession
    dsimp only
    split <;> exact ⟨hcleared.stores, hcleared.contexts⟩

theorem serveAll (h : ws.Written) {rs : List Request} {answers : List Answer}
    (hrs : ∀ r ∈ rs, r.WritesOnly) (hserve : ws.serveAll rs = some (answers, ws')) :
    ws'.Written :=
  serveAll_induction (fun hr hs hp => hp.serve (hrs _ hr) hs) h hserve

/-- What runs while a request is served starts with written variables. -/
theorem starts (h : ws.Written) (hpools : ws.Cleared) {r : Request} {env : Env} {j : Job}
    {m : Machine} (hs : Starts ws r env j m) : m.Written := by
  obtain ⟨i, htracks⟩ := hs.tracks
  obtain ⟨_, -, hran⟩ := hs.ran
  have hstores := h.stores.trans (htracks World.tracks_wrote)
  have hpool := hran.upkeep _ (upkeep_cleared _) (hpools.worldOf _)
  refine ⟨?_, hstores, hpool⟩
  cases hs with
  | @eval _ i | @evalText _ i =>
    exact .of_eq (congrArg Context.locals (Machine.obtain_cleared (hpools.worldOf i) i.session))
  | evalWith _ hc | spawn _ hc | invokeScript _ hc | invokeNative _ hc =>
    have hlocals := h.lookup hc
    exact hlocals

end Written

/-! ## Contexts and what they share -/

/-- The context and the variables that contexts share are there at the same time, between requests
    or while a request is served. -/
inductive Coexist (ws : Workspace) : Context → Stores → Prop where
  | named {x} : x ∈ ws.contexts → Coexist ws x.2 ws.world.stores
  | idle {e c} : e ∈ ws.pools → c ∈ e.2.idle → Coexist ws c ws.world.stores
  /-- A context that was there before a run and has no part in it. -/
  | aside {c r env j m m'} :
      Coexist ws c ws.world.stores → Starts ws r env j m → During env j m m' →
      Coexist ws c m'.world.stores
  /-- The context of a run. -/
  | current {r env j m m'} :
      Starts ws r env j m → During env j m m' → Coexist ws m'.ctx m'.world.stores
  /-- A context that waits while a part of its run is on another one. -/
  | waiting {r env j m env' j' m' m''} :
      Starts ws r env j m → Reaches env j m env' j' m' → During env' j' m' m'' →
      Coexist ws m'.ctx m''.world.stores
  /-- An idle context of the interpreter that runs. -/
  | pooled {c r env j m m'} :
      Starts ws r env j m → During env j m m' → c ∈ m'.world.pool.idle →
      Coexist ws c m'.world.stores

/-- All variables were written, and the context refers to variables that exist. -/
structure Sees (c : Context) (s : Stores) : Prop where
  locals : Vars.Wrote {} c.locals
  stores : Stores.Wrote {} s
  backed : c.store < s.tables.size

theorem Coexist.sees {c : Context} {s : Stores} (h : ws.Coexist c s) (hws : ws.Written)
    (hbacked : ws.Backed) (hpools : ws.Cleared) : Sees c s := by
  induction h with
  | named hx => exact ⟨hws.contexts _ hx, hws.stores, hbacked.contexts _ hx⟩
  | idle he hc =>
    have hempty : _ = ({} : Vars) := (congrArg Context.locals (hpools _ he _ hc)).symm
    exact ⟨.of_eq hempty, hws.stores, hbacked.idle _ he _ hc⟩
  | aside _ hs hd ih =>
    obtain ⟨hctx, hworld⟩ := hbacked.starts hs
    obtain ⟨_, htracks⟩ := hs.tracks
    have hstart := (htracks World.tracks_adds).size
    have hgrown := Nat.le_trans hstart (hctx.during hworld hd).2.2
    have hstores := ((hws.starts hpools hs).during hd).stores
    exact ⟨ih.locals, hstores, Nat.lt_of_lt_of_le ih.backed hgrown⟩
  | current hs hd =>
    obtain ⟨hctx, hworld⟩ := hbacked.starts hs
    obtain ⟨hlocals, hstores, -⟩ := (hws.starts hpools hs).during hd
    exact ⟨hlocals, hstores, (hctx.during hworld hd).1⟩
  | waiting hs hr hd =>
    obtain ⟨hctx, hworld⟩ := hbacked.starts hs
    have hwaits := (hws.starts hpools hs).reaches hr
    have hlt := hr.backed hctx hworld
    have hgrown := (hlt.during ((World.tracks_adds.reaches hr).backed hworld) hd).2.2
    exact ⟨hwaits.locals, (hwaits.during hd).stores, Nat.lt_of_lt_of_le hlt hgrown⟩
  | pooled hs hd hc =>
    obtain ⟨hctx, hworld⟩ := hbacked.starts hs
    obtain ⟨-, hstores, hpool⟩ := (hws.starts hpools hs).during hd
    have hempty : _ = ({} : Vars) := (congrArg Context.locals (hpool _ hc)).symm
    exact ⟨.of_eq hempty, hstores, (hctx.during hworld hd).2.1.idle _ hc⟩

/-! ## Null is absence -/

variable {rs : List Request} {answers : List Answer} {c : Context} {s : Stores}

/-- After any requests of a host that changes variables by writing them only, and at every moment of
    what runs then, no variable is null: none of a context, none of a session and none that all
    share. So a variable is there if and only if it is read as something else than null. And what a
    context writes, null or not, is read from then on by it and by all contexts that share the
    variable, while every other variable reads as before, for everybody. -/
theorem null_is_absence (hserve : ({} : Workspace).serveAll rs = some (answers, ws))
    (hrs : ∀ r ∈ rs, r.WritesOnly) (h : ws.Coexist c s) :
    (c.locals.NullFree ∧ s.global.NullFree ∧ ∀ vs ∈ s.tables, vs.NullFree) ∧
    (∀ v, (c.vars s v.tier).contains v.name = true ↔ c.read s v ≠ .null) ∧
    ∀ v value x,
      (c.write s v value).1.read (c.write s v value).2 x =
        (if x = v then value else c.read s x) ∧
      ∀ d : Context, d.read (c.write s v value).2 x =
        if x = v ∧ d.Shares c v.tier then value else d.read s x := by
  have hwritten : ({} : Workspace).Written := ⟨.refl _, List.forall_mem_nil _⟩
  have hsees := h.sees (hwritten.serveAll hrs hserve) (Backed.empty.serveAll hserve)
    (serveAll_cleared hserve)
  obtain ⟨hglobal, htables⟩ := hsees.stores.nullFree
  refine ⟨⟨hsees.locals.nullFree, hglobal, htables⟩, fun v => ?_, fun v value x => ?_⟩
  · have hvars : (c.vars s v.tier).NullFree := by
      cases v.tier with
      | loc => exact hsees.locals.nullFree
      | session => exact (hsees.stores.tables c.store).nullFree
      | global => exact hglobal
    rw [Context.read_eq_get]
    exact hvars.contains_iff v.name
  · exact ⟨Context.read_write_self hsees.backed v value x,
      fun d => Context.read_write hsees.backed v value d x⟩

/-- A function that leaves null in its parameter, which is copied back. -/
def wipe : Linked FnDef :=
  ⟨9, ⟨"wipe", ["a"], [0], ⟨[.assign ⟨.loc, "a"⟩ (.single (ownVar "none")) .first], [], .first⟩,
    .first⟩⟩

/-- Gives a context the variables `x` and `ss.n` and then calls `wipe(s.x)`. A null is written, too,
    and the variables of another session are removed. -/
def wiped : List Request :=
  [.addInterpreter "main" 1 {}, .newContext "c" 1, .write "c" ⟨.loc, "x"⟩ (.int 3),
    .write "c" ⟨.session, "n"⟩ (.int 4), .invoke "main" (.script wipe) [.single (ownVar "x")] "c",
    .adjust "c" fun c => c.setLocal "y" .null, .sessionVars 2 fun _ => {}]

/-- Afterwards `x` is not there and `ss.n` is. If another context of the session removes `ss.n` by
    writing null, it is gone for the first one too. -/
theorem null_is_absence_wiped :
    ∃ answers ws c, ({} : Workspace).serveAll wiped = some (answers, ws) ∧
      (∀ r ∈ wiped, r.WritesOnly) ∧ ws.Coexist c ws.world.stores ∧
      c.locals.contains "x" = false ∧ (ws.world.stores.table c.store).contains "n" = true ∧
      c.derive.read (c.write ws.world.stores ⟨.session, "n"⟩ .null).2 ⟨.session, "n"⟩ = .null := by
  have htest : (({} : Workspace).serveAll wiped).any (fun a =>
      (a.2.contexts.lookup "c").any fun c =>
        (c.read a.2.world.stores ⟨.loc, "x"⟩).isNull &&
          !(c.read a.2.world.stores ⟨.session, "n"⟩).isNull) = true := by
    decide +kernel
  obtain ⟨⟨answers, ws⟩, hserve, hany⟩ := (Option.any_eq_true _ _).mp htest
  obtain ⟨c, hc, hreads⟩ := (Option.any_eq_true _ _).mp hany
  obtain ⟨hx, hn⟩ := Bool.and_eq_true_iff.mp hreads
  have hwrites : ∀ r ∈ wiped, r.WritesOnly := by
    simp only [wiped, List.forall_mem_cons]
    exact ⟨trivial, trivial, trivial, trivial, trivial, fun c => c.locals.wrote_set "y" .null,
      Vars.wrote_clear, List.forall_mem_nil _⟩
  have hthere : ws.Coexist c ws.world.stores := .named (mem_of_lookup hc)
  obtain ⟨-, hpresent, hwrite⟩ := null_is_absence hserve hwrites hthere
  refine ⟨answers, ws, c, hserve, hwrites, hthere, ?_, ?_, ?_⟩
  · rw [← Bool.not_eq_true]
    intro hcontains
    have hread := (hpresent ⟨.loc, "x"⟩).mp hcontains
    exact hread (Value.eq_null_of_isNull hx)
  · refine (hpresent ⟨.session, "n"⟩).mpr fun hnull => ?_
    rw [hnull] at hn
    cases hn
  · have hread := (hwrite ⟨.session, "n"⟩ .null ⟨.session, "n"⟩).2 c.derive
    rwa [if_pos ⟨rfl, rfl⟩] at hread

end Workspace

end TierScript
