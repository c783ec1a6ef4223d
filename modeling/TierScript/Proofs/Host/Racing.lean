import Mathlib.Logic.Relation
import TierScript.Proofs.Host.Evaluations
import TierScript.Proofs.Host.Resolution

/-!
# Calls that are resolved at the same time

Interpreters resolve calls at the same time, and each call has one memory for its function and one
for its module, which all of them share. Each memory is written at most once. Between what a call
reads and what it writes, others may have written there first, and registries may have changed.

* `Traffic`: a workspace with the calls that are under way. `Traffic.Step` is one step of one of
  them, or a change of a registry. An evaluation is a sequence of such steps
  (`Traffic.reaches_ran`).
* `Traffic.Coherent`: what is remembered or about to be written is right for the registry that it
  was found in, and no two registries ever have the same generation.
* `Traffic.never_stale`: so an answer that passes the test of generations is the one that the
  registry gives now.
-/

namespace TierScript

open World Relation

/-! ## Workspaces with calls under way -/

/-- What a call under way is about to do. -/
inductive Underway where
  /-- It is going to write down the function that it found. -/
  | call (site : CallSite) (a : Resolution)
  /-- It is going to write down the module that it found. -/
  | module (site : CallSite) (slot : ModuleSlot)
  /-- It knows its module, and is going to look for the function. -/
  | within (registry : Registry) (site : CallSite) (id : Nat)

/-- A workspace and what the calls under way are about to do. -/
structure Traffic where
  ws : Workspace := {}
  underway : List Underway := []

theorem Machine.resolveModule_none {env : Env} {m m' : Machine} {site : CallSite} {module : String}
    (h : m.resolveModule env site module = (none, m')) : m' = m := by
  have fresh (h : resolveModule.fresh env site module m = (none, m')) : m' = m := by
    unfold resolveModule.fresh at h
    split at h <;> cases h
    rfl
  unfold resolveModule at h
  split at h
  · split at h
    · cases h
    · exact fresh h
  · exact fresh h

/-- Writes down what a call was resolved to. -/
def World.rememberCall (w : World) (site : CallSite) (a : Resolution) : World :=
  { w with calls := remember w.calls site a }

/-- Writes down the module that a call was resolved to. -/
def World.rememberModule (w : World) (site : CallSite) (slot : ModuleSlot) : World :=
  { w with moduleCalls := remember w.moduleCalls site slot }

namespace Traffic

/-- One step of a call or of a host. A call takes several steps, and what others do in between is up
    to them. -/
inductive Step : Traffic → Traffic → Prop where
  | addInterpreter {ws us} (name : String) (session : SessionId) (config : Config) :
      Step ⟨ws, us⟩ ⟨ws.addInterpreter name session config, us⟩
  | cloneInterpreter {ws us} (i : Interpreter) (name : String) :
      Step ⟨ws, us⟩ ⟨ws.cloneInterpreter i name, us⟩
  | dropInterpreter {ws us} (name : String) : Step ⟨ws, us⟩ ⟨ws.dropInterpreter name, us⟩
  | register {ws us} (i : Interpreter) (c : Callable) : Step ⟨ws, us⟩ ⟨(ws.register i c).2, us⟩
  | registerModule {ws us} (i : Interpreter) (m : Module) :
      Step ⟨ws, us⟩ ⟨(ws.registerModule i m).2, us⟩
  /-- A call is looked up on some context. -/
  | look {ws us callable a event} (i : Interpreter) (env : Env) (ctx : Context)
      (program : ProgramId) (c : Call) :
      env.registry = ws.registry i →
      Machine.search? env ctx c.name c.arity = some (callable, a, event) →
      Step ⟨ws, us⟩ ⟨ws, .call (c.site program) a :: us⟩
  /-- A call of a function of a module finds the module, in its memory or in the registry. -/
  | lookModule {ws us id} {m m' : Machine} (i : Interpreter) (env : Env) (program : ProgramId)
      (module : String) (c : Call) :
      env.registry = ws.registry i → m.world.calls = ws.world.calls →
      m.world.moduleCalls = ws.world.moduleCalls →
      m.resolveModule env (c.moduleSite program module) module = (some id, m') →
      Step ⟨ws, us⟩ ⟨ws, .module (c.moduleSite program module) ⟨env.registry.generation, id⟩ ::
        .within env.registry (c.moduleSite program module) id :: us⟩
  /-- The function is looked up in that module. -/
  | lookWithin {ws us found index} (r : Registry) (site : CallSite) (id : Nat) :
      .within r site id ∈ us → r.modules[id]? = some found →
      found.resolve? site.name site.arity = some index →
      Step ⟨ws, us⟩ ⟨ws, .call site (.slot r.generation index) :: us⟩
  /-- A call writes down its function, unless something was written there before. -/
  | write {ws us} (site : CallSite) (a : Resolution) : .call site a ∈ us →
      Step ⟨ws, us⟩ ⟨{ ws with world := ws.world.rememberCall site a }, us⟩
  /-- A call writes down its module, unless something was written there before. -/
  | writeModule {ws us} (site : CallSite) (slot : ModuleSlot) : .module site slot ∈ us →
      Step ⟨ws, us⟩ ⟨{ ws with world := ws.world.rememberModule site slot }, us⟩
  /-- Calls have done what they were about to do, or give up. -/
  | leave {ws us us'} : us' ⊆ us → Step ⟨ws, us⟩ ⟨ws, us'⟩
  /-- Something else happens: variables, output, the log, programs, contexts and pools change, and
      numbers are used up. -/
  | other {ws us ws'} : ws'.registries = ws.registries → ws.fresh ≤ ws'.fresh →
      ws'.world.calls = ws.world.calls → ws'.world.moduleCalls = ws.world.moduleCalls →
      Step ⟨ws, us⟩ ⟨ws', us⟩

/-- The second state comes after the first one, by any number of steps. -/
def Reaches : Traffic → Traffic → Prop := ReflTransGen Step

/-! ## Evaluations as steps -/

section Evaluations

variable {start : Traffic} {ws : Workspace} {us : List Underway} {i : Interpreter} {w w' : World}

theorem Reaches.other (h : Reaches start ⟨{ ws with world := w }, us⟩) (hc : w'.calls = w.calls)
    (hm : w'.moduleCalls = w.moduleCalls) : Reaches start ⟨{ ws with world := w' }, us⟩ :=
  h.tail (.other rfl (Nat.le_refl _) hc hm)

variable {env : Env} {m m' : Machine}

theorem Reaches.resolve {program : ProgramId} {c : Call} {r : Except EvalError Callable}
    (henv : env.registry = ws.registry i) (hr : m.resolve env program c = (r, m'))
    (h : Reaches start ⟨{ ws with world := m.world }, us⟩) :
    Reaches start ⟨{ ws with world := m'.world }, us⟩ := by
  unfold Machine.resolve at hr
  dsimp only at hr
  split at hr
  · cases hr; exact h
  · split at hr
    · next a event hsearch =>
      cases hr
      have hlook := h.tail (.look i env m.ctx program c henv hsearch)
      have hwrite := hlook.tail (.write (c.site program) a List.mem_cons_self)
      exact Reaches.other (hwrite.tail (.leave (List.subset_cons_self _ _))) rfl rfl
    · cases hr; exact h

/-- A call that finds its module is left with the function to look for. -/
theorem Reaches.lookModule {program : ProgramId} {module : String} {c : Call} {id : Nat}
    (henv : env.registry = ws.registry i)
    (hr : m.resolveModule env (c.moduleSite program module) module = (some id, m'))
    (h : Reaches start ⟨{ ws with world := m.world }, us⟩) :
    Reaches start ⟨{ ws with world := m'.world },
      .within env.registry (c.moduleSite program module) id :: us⟩ := by
  have hlook := h.tail (.lookModule i env program module c henv rfl rfl hr)
  have hfresh (hf : Machine.resolveModule.fresh env (c.moduleSite program module) module m =
      (some id, m')) : Reaches start ⟨{ ws with world := m'.world },
        .within env.registry (c.moduleSite program module) id :: us⟩ := by
    unfold Machine.resolveModule.fresh at hf
    split at hf
    · cases hf
    · cases hf
      have hwrite := hlook.tail (.writeModule _ _ List.mem_cons_self)
      exact Reaches.other (hwrite.tail (.leave (List.subset_cons_self _ _))) rfl rfl
  unfold Machine.resolveModule at hr
  split at hr
  · split at hr
    · cases hr
      exact hlook.tail (.leave (List.subset_cons_self _ _))
    · exact hfresh hr
  · exact hfresh hr

theorem Reaches.resolveModuleCall {program : ProgramId} {module : String} {c : Call}
    {r : Except EvalError Callable} (henv : env.registry = ws.registry i)
    (hr : m.resolveModuleCall env program module c = (r, m'))
    (h : Reaches start ⟨{ ws with world := m.world }, us⟩) :
    Reaches start ⟨{ ws with world := m'.world }, us⟩ := by
  have hleave {m₁ : Machine} {id : Option Nat}
      (hmod : m.resolveModule env (c.moduleSite program module) module = (id, m₁)) :
      Reaches start ⟨{ ws with world := m₁.world }, us⟩ := by
    cases id with
    | none => rw [Machine.resolveModule_none hmod]; exact h
    | some id => exact (h.lookModule henv hmod).tail (.leave (List.subset_cons_self _ _))
  rcases Machine.resolveModuleCall_steps hr with hmod | ⟨id, m₁, found, r₁, hmod, hfound, hin⟩
  · exact hleave hmod
  · unfold Machine.resolveIn at hin
    dsimp only at hin
    split at hin
    · cases hin; exact hleave hmod
    · split at hin
      · cases hin; exact hleave hmod
      · next index hindex =>
        cases hin
        have hwithin := h.lookModule henv hmod
        have hlook := hwithin.tail (.lookWithin _ _ id List.mem_cons_self hfound hindex)
        have hwrite := hlook.tail (.write _ _ List.mem_cons_self)
        exact hwrite.tail (.leave fun _ hu => .tail _ (.tail _ hu))

/-- A run by an interpreter is such steps. -/
theorem reaches_ran (hran : Workspace.Ran (ws.registry i) (ws.worldOf i) w) (us : List Underway) :
    Reaches ⟨ws, us⟩ ⟨ws.adopt i w, us⟩ := by
  have hupkeep : Upkeep (ws.registry i) fun w => Reaches ⟨ws, us⟩ ⟨{ ws with world := w }, us⟩ := {
    note := fun _ _ h => h.other rfl rfl
    print := fun _ _ h => h.other rfl rfl
    keep := fun _ _ h => h.other rfl rfl
    store := fun _ _ h => h.other rfl rfl
    obtain := fun _ _ h => h.other rfl rfl
    release := fun _ _ h => h.other rfl rfl
    resolve := fun henv hr h => h.resolve henv hr
    resolveModuleCall := fun henv hr h => h.resolveModuleCall henv hr }
  have hstart : Reaches ⟨ws, us⟩ ⟨{ ws with world := ws.worldOf i }, us⟩ :=
    ReflTransGen.single (.other rfl (Nat.le_refl _) rfl rfl)
  exact (hran.upkeep _ hupkeep hstart).tail (.other rfl (Nat.le_refl _) rfl rfl)

end Evaluations

/-! ## Coherence -/

end Traffic

/-- What the call is about to do is right for the registry. -/
def Underway.From (r : Registry) : Underway → Prop
  | .call _ (.nested _) => True
  | .call site (.slot g index) => g = r.generation ∧
      (site.module = none → r.resolve? site.name site.arity = some index) ∧
      ∀ module, site.module = some module → ∃ id found, r.moduleId? module = some id ∧
        r.modules[id]? = some found ∧ found.resolve? site.name site.arity = some index
  | .module site slot => slot.generation = r.generation ∧
      ∀ module, site.module = some module → r.moduleId? module = some slot.id
  | .within r' site id => r' = r ∧
      ∃ module, site.module = some module ∧ r.moduleId? module = some id

namespace World

variable {w : World} {r r' : Registry} {bound : Nat} {site : CallSite}

theorem Indexed.rememberCall (h : w.Indexed r) {a : Resolution}
    (ha : (Underway.call site a).From r') (hunique : r.generation = r'.generation → r = r') :
    (w.rememberCall site a).Indexed r where
  slots s i hs hl := by
    rcases lookup_remember hl with hold | ⟨rfl, rfl⟩
    · exact h.slots s i hs hold
    · obtain ⟨hg, hslot, -⟩ := ha
      rw [hunique hg]
      exact hslot hs
  modules := h.modules
  functions s module i hs hl := by
    rcases lookup_remember hl with hold | ⟨rfl, rfl⟩
    · exact h.functions s module i hs hold
    · obtain ⟨hg, -, hfunction⟩ := ha
      rw [hunique hg]
      exact hfunction module hs

theorem Indexed.rememberModule (h : w.Indexed r) {slot : ModuleSlot}
    (hslot : (Underway.module site slot).From r')
    (hunique : r.generation = r'.generation → r = r') : (w.rememberModule site slot).Indexed r where
  slots := h.slots
  modules s module id hs hl := by
    rcases lookup_remember hl with hold | ⟨rfl, rfl⟩
    · exact h.modules s module id hs hold
    · obtain ⟨hg, hid⟩ := hslot
      rw [hunique hg]
      exact hid module hs
  functions := h.functions

theorem Dated.rememberCall (h : w.Dated bound) {a : Resolution}
    (ha : (Underway.call site a).From r) (hr : r.generation < bound) :
    (w.rememberCall site a).Dated bound where
  slots s g i hl := by
    rcases lookup_remember hl with hold | ⟨rfl, rfl⟩
    · exact h.slots s g i hold
    · rw [ha.1]
      exact hr
  modules := h.modules

theorem Dated.rememberModule (h : w.Dated bound) {slot : ModuleSlot}
    (hslot : (Underway.module site slot).From r) (hr : r.generation < bound) :
    (w.rememberModule site slot).Dated bound where
  slots := h.slots
  modules s slot' hl := by
    rcases lookup_remember hl with hold | ⟨rfl, rfl⟩
    · exact h.modules s slot' hold
    · rw [hslot.1]
      exact hr

end World

namespace Traffic

/-- Of the registries that there have been so far, no two have the same generation. All that calls
    remember is right for them, and so is what calls are about to do. -/
structure Coherent (past : Registry → Prop) (s : Traffic) : Prop where
  held : ∀ r, s.ws.Holds r → past r
  bounded : ∀ r, past r → r.generation < s.ws.fresh
  unique : ∀ r r', past r → past r' → r.generation = r'.generation → r = r'
  indexed : ∀ r, past r → s.ws.world.Indexed r
  dated : s.ws.world.Dated s.ws.fresh
  underway : ∀ u ∈ s.underway, ∃ r, past r ∧ u.From r

namespace Coherent

variable {past : Registry → Prop} {s : Traffic} {ws ws' : Workspace} {us : List Underway}

theorem start : Coherent (· = default) {} where
  held r hr := by
    rcases hr with rfl | ⟨e, he, -⟩
    · rfl
    · cases he
  bounded r hr := by
    rw [hr]
    exact Nat.one_pos
  unique r r' hr hr' _ := hr.trans hr'.symm
  indexed _ _ := ⟨nofun, nofun, nofun⟩
  dated := ⟨nofun, nofun⟩
  underway := nofun

/-- Registries may go, and numbers may be used up. -/
theorem mono (h : Coherent past ⟨ws, us⟩) (hr : ∀ e ∈ ws'.registries, e ∈ ws.registries)
    (hf : ws.fresh ≤ ws'.fresh) (hc : ws'.world.calls = ws.world.calls)
    (hm : ws'.world.moduleCalls = ws.world.moduleCalls) : Coherent past ⟨ws', us⟩ where
  held r hold := h.held r (hold.mono hr)
  bounded r hpast := Nat.lt_of_lt_of_le (h.bounded r hpast) hf
  unique := h.unique
  indexed r hpast := (h.indexed r hpast).of_eq hc hm
  dated := (h.dated.of_eq hc hm).mono hf
  underway := h.underway

/-- A registry that is new or changed takes the next number, which no registry had so far. -/
theorem change (h : Coherent past ⟨ws, us⟩) (new : Registry) (hg : new.generation = ws.fresh)
    (hr : ∀ e ∈ ws'.registries, e ∈ ws.registries ∨ e.2 = new) (hf : ws'.fresh = ws.fresh + 1)
    (hc : ws'.world.calls = ws.world.calls)
    (hm : ws'.world.moduleCalls = ws.world.moduleCalls) :
    Coherent (fun r => past r ∨ r = new) ⟨ws', us⟩ where
  held r hold := (hold.change hr).imp_left (h.held r)
  bounded := by
    have hlt : ws.fresh < ws'.fresh := hf ▸ Nat.lt_succ_self _
    rintro r (hpast | rfl)
    · exact Nat.lt_trans (h.bounded r hpast) hlt
    · exact hg ▸ hlt
  unique := by
    rintro r r' (hpast | rfl) (hpast' | rfl) heq
    · exact h.unique r r' hpast hpast' heq
    · exact absurd (h.bounded r hpast) (by rw [heq, hg]; exact Nat.lt_irrefl _)
    · exact absurd (h.bounded r' hpast') (by rw [← heq, hg]; exact Nat.lt_irrefl _)
    · rfl
  indexed := by
    rintro r (hpast | rfl)
    · exact (h.indexed r hpast).of_eq hc hm
    · exact (h.dated.of_eq hc hm).indexed (Nat.le_of_eq hg.symm)
  dated := (h.dated.of_eq hc hm).mono (by show ws.fresh ≤ ws'.fresh; omega)
  underway u hu := (h.underway u hu).imp fun _ hfrom => ⟨.inl hfrom.1, hfrom.2⟩

theorem enter (h : Coherent past ⟨ws, us⟩) {u : Underway} {r : Registry} (hr : past r)
    (hu : u.From r) : Coherent past ⟨ws, u :: us⟩ where
  held := h.held
  bounded := h.bounded
  unique := h.unique
  indexed := h.indexed
  dated := h.dated
  underway := List.forall_mem_cons.mpr ⟨⟨r, hr, hu⟩, h.underway⟩

theorem write (h : Coherent past ⟨ws, us⟩) {site : CallSite} {a : Resolution}
    (hu : .call site a ∈ us) :
    Coherent past ⟨{ ws with world := ws.world.rememberCall site a }, us⟩ := by
  obtain ⟨r', hpast', hfrom⟩ := h.underway _ hu
  exact {
    held := h.held
    bounded := h.bounded
    unique := h.unique
    indexed := fun r hpast => (h.indexed r hpast).rememberCall hfrom (h.unique r r' hpast hpast')
    dated := h.dated.rememberCall hfrom (h.bounded r' hpast')
    underway := h.underway }

theorem writeModule (h : Coherent past ⟨ws, us⟩) {site : CallSite} {slot : ModuleSlot}
    (hu : .module site slot ∈ us) :
    Coherent past ⟨{ ws with world := ws.world.rememberModule site slot }, us⟩ := by
  obtain ⟨r', hpast', hfrom⟩ := h.underway _ hu
  exact {
    held := h.held
    bounded := h.bounded
    unique := h.unique
    indexed := fun r hpast => (h.indexed r hpast).rememberModule hfrom (h.unique r r' hpast hpast')
    dated := h.dated.rememberModule hfrom (h.bounded r' hpast')
    underway := h.underway }

end Coherent

theorem Step.coherent {s s' : Traffic} (h : Step s s') {past : Registry → Prop}
    (hs : Coherent past s) : ∃ past', Coherent past' s' := by
  cases h with
  | @addInterpreter ws us name session config =>
    refine ⟨_, hs.change { generation := ws.fresh } rfl ?_ rfl rfl rfl⟩
    intro e he
    rcases List.mem_cons.mp (List.mem_filter.mp he).1 with rfl | he
    · exact .inr rfl
    · exact .inl he
  | cloneInterpreter | dropInterpreter =>
    exact ⟨past, hs.mono (fun e he => (List.mem_filter.mp he).1) (Nat.le_refl _) rfl rfl⟩
  | @register ws us i c =>
    unfold Workspace.register
    split
    · exact ⟨past, hs⟩
    · exact ⟨_, hs.change ((ws.registry i).register ws.fresh c) rfl
        (fun e he => Workspace.mem_setRegistry he) rfl rfl rfl⟩
  | @registerModule ws us i m =>
    unfold Workspace.registerModule
    split
    · exact ⟨past, hs⟩
    · split
      · exact ⟨past, hs⟩
      · next r hr =>
        exact ⟨_, hs.change r (Workspace.registerModule_generation hr)
          (fun e he => Workspace.mem_setRegistry he) rfl rfl rfl⟩
  | @look ws us callable a event i env ctx program c henv hsearch =>
    have hfound := Machine.search?_found hsearch
    refine ⟨past, hs.enter (hs.held _ (ws.holds_registry i)) ?_⟩
    cases a with
    | nested f => trivial
    | slot g index =>
      obtain ⟨-, hg, hslot⟩ := hfound
      rw [henv] at hg hslot
      exact ⟨hg, fun _ => hslot, nofun⟩
  | @lookModule ws us id m m' i env program module c henv hc hm hr =>
    have hpast : past env.registry := henv ▸ hs.held _ (ws.holds_registry i)
    have hindexed : m.world.Indexed env.registry := (hs.indexed _ hpast).of_eq hc hm
    have hid := Machine.resolveModule_eq hindexed
      (show (c.moduleSite program module).module = some module from rfl)
    rw [hr] at hid
    have hwithin := hs.enter (u := .within env.registry (c.moduleSite program module) id) hpast
      ⟨rfl, module, rfl, hid.symm⟩
    refine ⟨past, hwithin.enter hpast ⟨rfl, fun named hnamed => ?_⟩⟩
    cases hnamed
    exact hid.symm
  | @lookWithin ws us found index r site id hu hfound hindex =>
    obtain ⟨r', hpast, rfl, module, hmodule, hid⟩ := hs.underway _ hu
    refine ⟨past, hs.enter hpast ⟨rfl, fun hnone => ?_, fun named hnamed => ?_⟩⟩
    · rw [hmodule] at hnone
      cases hnone
    · obtain rfl := Option.some.inj (hmodule.symm.trans hnamed)
      exact ⟨id, found, hid, hfound, hindex⟩
  | write site a hu => exact ⟨past, hs.write hu⟩
  | writeModule site slot hu => exact ⟨past, hs.writeModule hu⟩
  | leave hsub =>
    exact ⟨past, hs.held, hs.bounded, hs.unique, hs.indexed, hs.dated,
      fun u hu => hs.underway u (hsub hu)⟩
  | other hr hf hc hm => exact ⟨past, hs.mono (fun e he => hr ▸ he) hf hc hm⟩

theorem Reaches.coherent {s : Traffic} (h : Reaches {} s) : ∃ past, Coherent past s := by
  induction h with
  | refl => exact ⟨_, .start⟩
  | tail _ hstep ih =>
    obtain ⟨past, hs⟩ := ih
    exact hstep.coherent hs

/-! ## What passes the test of generations -/

/-- Calls are resolved and registries change in any order. Then what calls remember under the
    generation that a registry has now is what that registry has for them now (`World.Indexed`). So
    a remembered slot leads to the callable that the registry resolves the call to, a call of a
    function of a module means the same as without any memory, and a call that is about to look into
    a module finds there what that module has for it, whatever it remembers. -/
theorem never_stale {s : Traffic} (h : Reaches {} s) :
    (∀ (i : Interpreter) (env : Env) (m : Machine), env.registry = s.ws.registry i →
      m.world.calls = s.ws.world.calls → m.world.moduleCalls = s.ws.world.moduleCalls →
      m.world.Indexed env.registry ∧
      (∀ site g index, site.module = none → m.world.calls.lookup site = some (.slot g index) →
        g = env.registry.generation →
        m.remembered? env site = (env.registry.resolve? site.name site.arity).bind
          fun slot => env.registry.slots[slot]?) ∧
      ∀ program module c,
        (m.resolveModuleCall env program module c).1 = Machine.moduleMeaning env module c) ∧
    ∀ r site id found, .within r site id ∈ s.underway → r.modules[id]? = some found →
      (∃ module, site.module = some module ∧ r.moduleId? module = some id) ∧
      ∀ (env : Env) (m : Machine), env.registry = r → m.world.calls = s.ws.world.calls →
        m.world.moduleCalls = s.ws.world.moduleCalls →
        (m.resolveIn env site found).1 = (found.resolve? site.name site.arity).bind
          fun index => found.functions[index]? := by
  obtain ⟨past, hs⟩ := h.coherent
  refine ⟨fun i env m henv hc hm => ?_, fun r site id found hu hfound => ?_⟩
  · have hpast : past env.registry := henv ▸ hs.held _ (s.ws.holds_registry i)
    have hindexed : m.world.Indexed env.registry := (hs.indexed _ hpast).of_eq hc hm
    refine ⟨hindexed, fun site g index hnone hl hg => ?_, fun program module c => ?_⟩
    · subst hg
      have hslot := hindexed.slots site index hnone hl
      rw [Machine.remembered?, hl, hslot]
      exact if_pos rfl
    · exact Machine.resolveModuleCall_eq_meaning hindexed program module c
  · obtain ⟨r', hpast, rfl, module, hmodule, hid⟩ := hs.underway _ hu
    refine ⟨⟨module, hmodule, hid⟩, fun env m henv hc hm => ?_⟩
    subst henv
    exact Machine.resolveIn_eq ((hs.indexed _ hpast).of_eq hc hm) hmodule hid hfound

/-! ## A race -/

/-- An interpreter with the registry and the pool of the given number. -/
def racer (number : Nat) : Interpreter := ⟨1, {}, number, number⟩

/-- A function of the host that does nothing. -/
def nothing (name : String) : Callable := .native name .any fun _ => .done

/-- Two interpreters, with `f` in the first and in the second slot of their registries, and in the
    first and in the second place of a module that is the first and the second one of them. -/
def raced : Workspace :=
  let ws := (({} : Workspace).addInterpreter "a" 1 {}).addInterpreter "b" 1 {}
  let ws := (ws.register (racer 1) (nothing "f")).2
  let ws := ((ws.register (racer 2) (nothing "g")).2.register (racer 2) (nothing "f")).2
  let ws := (ws.registerModule (racer 1) ⟨"m", [nothing "f"]⟩).2
  let ws := (ws.registerModule (racer 2) ⟨"other", []⟩).2
  (ws.registerModule (racer 2) ⟨"m", [nothing "g", nothing "f"]⟩).2

theorem reaches_raced : Reaches {} ⟨raced, []⟩ := by
  have hadded : Reaches {} _ :=
    (ReflTransGen.single (.addInterpreter "a" 1 {})).tail (.addInterpreter "b" 1 {})
  have hregistered := ((hadded.tail (.register (racer 1) (nothing "f"))).tail
    (.register (racer 2) (nothing "g"))).tail (.register (racer 2) (nothing "f"))
  exact ((hregistered.tail (.registerModule (racer 1) _)).tail (.registerModule (racer 2) _)).tail
    (.registerModule (racer 2) _)

/-- The environments of the two interpreters. -/
def racedEnv (number : Nat) : Env := raced.env (racer number) []

/-- Both interpreters look the same call up before one of them writes down what it found. The second
    one writes first, so the call remembers its slot, and that counts for it only. Then both are in
    a call of a function of a module. The second one is the first to write down the module, and the
    first one is the first to write down the function. So each of the two memories counts for one of
    them, and both still find their own function. -/
theorem never_stale_raced :
    let call := Workspace.calling "f"
    ∃ s, Reaches {} s ∧
      (s.ws.world.calls.lookup (call.site 9) = some (.slot 8 1) ∧
        (s.ws.registry (racer 1)).generation = 6 ∧ (s.ws.registry (racer 2)).generation = 8 ∧
        (s.ws.registry (racer 2)).resolve? "f" 0 = some 1) ∧
      s.ws.world.moduleCalls.lookup (call.moduleSite 9 "m") = some ⟨8, 1⟩ ∧
      s.ws.world.calls.lookup (call.moduleSite 9 "m") = some (.slot 6 0) ∧
      ∀ number ∈ [1, 2],
        (Machine.resolveModuleCall (racedEnv number) 9 "m" call
          ⟨Workspace.blankContext, s.ws.world⟩).1 = .ok (nothing "f") := by
  intro call
  have hfirst := reaches_raced.tail (.look (racer 1) (racedEnv 1)
    Workspace.blankContext 9 call (a := .slot 6 0) rfl rfl)
  have hsecond := hfirst.tail (.look (racer 2) (racedEnv 2)
    Workspace.blankContext 9 call (a := .slot 8 1) rfl rfl)
  have hwon := hsecond.tail (.write _ _ List.mem_cons_self)
  have hlost := hwon.tail (.write _ _ (.tail _ List.mem_cons_self))
  have hmodule := hlost.tail (.lookModule (racer 1) (racedEnv 1) 9 "m" call
    (m := ⟨Workspace.blankContext, _⟩) rfl rfl rfl rfl)
  have hmodules := hmodule.tail (.lookModule (racer 2) (racedEnv 2) 9 "m" call
    (m := ⟨Workspace.blankContext, _⟩) rfl rfl rfl rfl)
  have hkept := hmodules.tail (.writeModule _ _ List.mem_cons_self)
  have hwithin := hkept.tail
    (.lookWithin _ _ _ (.tail _ (.tail _ (.tail _ List.mem_cons_self))) rfl rfl)
  have hboth := hwithin.tail (.lookWithin _ _ _ (.tail _ (.tail _ List.mem_cons_self)) rfl rfl)
  have hfunction := hboth.tail (.write _ _ (.tail _ List.mem_cons_self))
  have hend := hfunction.tail (.write _ _ List.mem_cons_self)
  have hstale := (never_stale hend).1
  have hcounts := (hstale (racer 2) (racedEnv 2) ⟨Workspace.blankContext, _⟩ rfl rfl rfl).1
  have hslot := hcounts.slots (call.site 9) 1 rfl rfl
  refine ⟨_, hend, ⟨rfl, rfl, rfl, hslot⟩, rfl, rfl, fun number hnumber => ?_⟩
  obtain rfl | rfl : number = 1 ∨ number = 2 := by simpa using hnumber
  · exact (hstale (racer 1) (racedEnv 1) ⟨Workspace.blankContext, _⟩ rfl rfl rfl).2.2 9 "m" call
  · exact (hstale (racer 2) (racedEnv 2) ⟨Workspace.blankContext, _⟩ rfl rfl rfl).2.2 9 "m" call

end Traffic

end TierScript
