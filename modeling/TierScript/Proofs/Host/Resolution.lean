import TierScript.Proofs.Host.Caches
import TierScript.Proofs.Run.Underway

/-!
# Remembered slots and modules

What calls remember of registries, for calls with a module and without.

* `Learns`: at most one call has something to remember that it did not remember before.
  `resolve_learns` and `resolveModuleCall_learns` say what that is.
* `World.Indexed`: what is remembered under the generation of a registry is what the registry has
  for the call. Every run keeps it, also for the registries of other interpreters
  (`upkeep_indexed`).
* `World.Dated`: generations that are remembered were given out already.
* `resolveModuleCall_eq_meaning`: then a call of a function of a module is resolved to what it
  means, whatever it remembers.
-/

namespace TierScript

/-! ## What calls learn -/

/-- What is remembered in the second list was remembered in the first one, but for what the call at
    the given site has learned. -/
def Learns {α : Type} (old new : List (CallSite × α)) (site : CallSite) (p : α → Prop) : Prop :=
  ∀ s a, new.lookup s = some a → old.lookup s = some a ∨ s = site ∧ p a

namespace Learns

variable {α : Type} {old new : List (CallSite × α)} {site : CallSite} {p : α → Prop}

theorem refl (old : List (CallSite × α)) (site : CallSite) (p : α → Prop) :
    Learns old old site p := fun _ _ h => .inl h

theorem of_eq (h : new = old) : Learns old new site p := h ▸ refl old site p

theorem remember {a : α} (h : p a) : Learns old (remember old site a) site p := by
  intro s b hs
  rcases lookup_remember hs with hold | ⟨hsite, rfl⟩
  · exact .inl hold
  · exact .inr ⟨hsite, h⟩

end Learns

namespace Machine

variable {env : Env} {program : ProgramId} {c : Call} {module : String} {site : CallSite}
  {m m' : Machine}

/-- What a call learns when it is resolved on a context: the function around it, or else the slot of
    the registry. -/
def Found (env : Env) (ctx : Context) (c : Call) : Resolution → Prop
  | .nested f => ctx.findFunction? c.name c.arity = some f
  | .slot generation index =>
    ctx.findFunction? c.name c.arity = none ∧ generation = env.registry.generation ∧
      env.registry.resolve? c.name c.arity = some index

/-- What a call learns of the module it names. -/
def FoundModule (env : Env) (module : String) (slot : ModuleSlot) : Prop :=
  slot.generation = env.registry.generation ∧ env.registry.moduleId? module = some slot.id

/-- What a call learns of its function, once its module was found. -/
def FoundIn (env : Env) (name : String) (arity : Nat) (found : Module) (a : Resolution) : Prop :=
  ∃ index, a = .slot env.registry.generation index ∧ found.resolve? name arity = some index

theorem search?_found {ctx : Context} {callable : Callable} {a : Resolution} {event : Event}
    (h : search? env ctx c.name c.arity = some (callable, a, event)) : Found env ctx c a := by
  unfold search? at h
  split at h
  · next hf => cases h; exact hf
  · next hf =>
    obtain ⟨slot, hslot, hfound⟩ := Option.bind_eq_some_iff.mp h
    obtain ⟨_, -, hpair⟩ := Option.map_eq_some_iff.mp hfound
    cases hpair
    exact ⟨hf, rfl, hslot⟩

theorem resolve_learns {r : Except EvalError Callable} (h : m.resolve env program c = (r, m')) :
    Learns m.world.calls m'.world.calls (c.site program) (Found env m.ctx c) ∧
      m'.world.moduleCalls = m.world.moduleCalls := by
  unfold resolve at h
  dsimp only at h
  split at h
  · cases h; exact ⟨.refl _ _ _, rfl⟩
  · split at h
    · next hsearch => cases h; exact ⟨.remember (search?_found hsearch), rfl⟩
    · cases h; exact ⟨.refl _ _ _, rfl⟩

theorem resolveModule_learns {id : Option Nat} (h : m.resolveModule env site module = (id, m')) :
    Learns m.world.moduleCalls m'.world.moduleCalls site (FoundModule env module) := by
  have fresh (h : resolveModule.fresh env site module m = (id, m')) :
      Learns m.world.moduleCalls m'.world.moduleCalls site (FoundModule env module) := by
    unfold resolveModule.fresh at h
    split at h
    · cases h; exact .refl _ _ _
    · next hid => cases h; exact .remember ⟨rfl, hid⟩
  unfold resolveModule at h
  split at h
  · split at h
    · cases h; exact .refl _ _ _
    · exact fresh h
  · exact fresh h

theorem resolveIn_learns {found : Module} {r : Option Callable}
    (h : m.resolveIn env site found = (r, m')) :
    Learns m.world.calls m'.world.calls site (FoundIn env site.name site.arity found) ∧
      m'.world.moduleCalls = m.world.moduleCalls := by
  unfold resolveIn at h
  dsimp only at h
  split at h
  · cases h; exact ⟨.refl _ _ _, rfl⟩
  · split at h
    · cases h; exact ⟨.refl _ _ _, rfl⟩
    · next i hi => cases h; exact ⟨.remember ⟨i, rfl, hi⟩, rfl⟩

/-- A call of a function of a module is resolved in two steps, the second one only if the first one
    finds a module. -/
theorem resolveModuleCall_steps {r : Except EvalError Callable}
    (h : m.resolveModuleCall env program module c = (r, m')) :
    let site := c.moduleSite program module
    m.resolveModule env site module = ((m.resolveModule env site module).1, m') ∨
      ∃ id m₁ found r₁, m.resolveModule env site module = (some id, m₁) ∧
        env.registry.modules[id]? = some found ∧ m₁.resolveIn env site found = (r₁, m') := by
  intro site
  unfold resolveModuleCall at h
  dsimp only at h
  split at h
  · next hmod => cases h; rw [hmod]; exact .inl rfl
  · next id m₁ hmod =>
    split at h
    · cases h; rw [hmod]; exact .inl rfl
    · next found hfound =>
      split at h
      · next hin => cases h; exact .inr ⟨id, m₁, found, _, hmod, hfound, hin⟩
      · next hin => cases h; exact .inr ⟨id, m₁, found, _, hmod, hfound, hin⟩

theorem resolveModuleCall_learns {r : Except EvalError Callable}
    (h : m.resolveModuleCall env program module c = (r, m')) :
    let site := c.moduleSite program module
    Learns m.world.moduleCalls m'.world.moduleCalls site (FoundModule env module) ∧
      Learns m.world.calls m'.world.calls site fun a => ∃ id found,
        (m.resolveModule env site module).1 = some id ∧ env.registry.modules[id]? = some found ∧
          FoundIn env c.name c.arity found a := by
  intro site
  rcases resolveModuleCall_steps h with hmod | ⟨id, m₁, found, r₁, hmod, hfound, hin⟩
  · exact ⟨resolveModule_learns hmod, .of_eq (resolveModule_calls hmod)⟩
  · obtain ⟨hcalls, hmodules⟩ := resolveIn_learns hin
    refine ⟨hmodules ▸ resolveModule_learns hmod, ?_⟩
    rw [← resolveModule_calls hmod]
    intro s a ha
    refine (hcalls s a ha).imp_right fun ⟨hs, hfind⟩ => ?_
    exact ⟨hs, id, found, by rw [hmod], hfound, hfind⟩

end Machine

/-! ## What is remembered of a registry -/

namespace World

/-- What calls remember under the generation of the registry is what the registry has for them. -/
structure Indexed (r : Registry) (w : World) : Prop where
  slots : ∀ site i, site.module = none → w.calls.lookup site = some (.slot r.generation i) →
    r.resolve? site.name site.arity = some i
  modules : ∀ site module id, site.module = some module →
    w.moduleCalls.lookup site = some ⟨r.generation, id⟩ → r.moduleId? module = some id
  functions : ∀ site module i, site.module = some module →
    w.calls.lookup site = some (.slot r.generation i) →
    ∃ id found, r.moduleId? module = some id ∧ r.modules[id]? = some found ∧
      found.resolve? site.name site.arity = some i

/-- All generations that calls remember are below the bound. -/
structure Dated (bound : Nat) (w : World) : Prop where
  slots : ∀ site g i, w.calls.lookup site = some (.slot g i) → g < bound
  modules : ∀ site slot, w.moduleCalls.lookup site = some slot → slot.generation < bound

variable {w w' : World} {r : Registry} {bound : Nat}

theorem Indexed.of_eq (h : w.Indexed r) (hc : w'.calls = w.calls)
    (hm : w'.moduleCalls = w.moduleCalls) : w'.Indexed r :=
  ⟨hc ▸ h.slots, hm ▸ h.modules, hc ▸ h.functions⟩

theorem Dated.of_eq (h : w.Dated bound) (hc : w'.calls = w.calls)
    (hm : w'.moduleCalls = w.moduleCalls) : w'.Dated bound :=
  ⟨hc ▸ h.slots, hm ▸ h.modules⟩

theorem Dated.mono {bound' : Nat} (h : w.Dated bound) (hb : bound ≤ bound') : w.Dated bound' :=
  ⟨fun site g i hs => Nat.lt_of_lt_of_le (h.slots site g i hs) hb,
    fun site slot hs => Nat.lt_of_lt_of_le (h.modules site slot hs) hb⟩

/-- Nothing is remembered of a registry with a generation that was not given out yet. -/
theorem Dated.indexed (h : w.Dated bound) (hr : bound ≤ r.generation) : w.Indexed r where
  slots site i _ hs := absurd (h.slots site _ i hs) (Nat.not_lt.mpr hr)
  modules site _ _ _ hs := absurd (h.modules site _ hs) (Nat.not_lt.mpr hr)
  functions site _ i _ hs := absurd (h.slots site _ i hs) (Nat.not_lt.mpr hr)

end World

namespace Machine

open World

variable {env : Env} {program : ProgramId} {c : Call} {module : String} {m m' : Machine}

/-- Under a valid index, the module that a call is resolved to is the one that it names. -/
theorem resolveModule_eq (h : m.world.Indexed env.registry) {site : CallSite}
    (hs : site.module = some module) :
    (m.resolveModule env site module).1 = env.registry.moduleId? module := by
  have fresh : (resolveModule.fresh env site module m).1 = env.registry.moduleId? module := by
    unfold resolveModule.fresh
    split
    · next hid => exact hid.symm
    · next hid => exact hid.symm
  unfold resolveModule
  split
  · next slot hslot =>
    split
    · next hg =>
      obtain ⟨g, id⟩ := slot
      cases hg
      exact (h.modules site module id hs hslot).symm
    · exact fresh
  · exact fresh

end Machine

section Upkeep

open World Machine

variable {r r' : Registry}

/-- Runs with the one registry keep the index of the other one valid, unless the two have the same
    generation and are different. -/
theorem upkeep_indexed (h : r'.generation = r.generation → r' = r) :
    Upkeep r (World.Indexed r') where
  note _ _ hw := hw.of_eq rfl rfl
  print _ _ hw := hw.of_eq rfl rfl
  keep _ _ hw := hw.of_eq rfl rfl
  store _ _ hw := hw.of_eq rfl rfl
  obtain _ _ hw := hw.of_eq rfl rfl
  release _ _ hw := hw.of_eq rfl rfl
  resolve := by
    rintro env m m' program c result rfl hres hw
    obtain ⟨hcalls, hmodules⟩ := resolve_learns hres
    refine ⟨fun site i hnone hs => ?_, hmodules ▸ hw.modules, fun site module i hsome hs => ?_⟩
    · rcases hcalls site _ hs with hold | ⟨rfl, -, hg, hres⟩
      · exact hw.slots site i hnone hold
      · rw [h hg]
        exact hres
    · rcases hcalls site _ hs with hold | ⟨rfl, -⟩
      · exact hw.functions site module i hsome hold
      · cases hsome
  resolveModuleCall := by
    rintro env m m' program module c result rfl hres hw
    obtain ⟨hmodules, hcalls⟩ := resolveModuleCall_learns hres
    refine ⟨fun site i hnone hs => ?_, fun site named id hsome hs => ?_,
      fun site named i hsome hs => ?_⟩
    · rcases hcalls site _ hs with hold | ⟨rfl, -⟩
      · exact hw.slots site i hnone hold
      · cases hnone
    · rcases hmodules site _ hs with hold | ⟨rfl, hg, hid⟩
      · exact hw.modules site named id hsome hold
      · cases hsome
        rw [h hg]
        exact hid
    · rcases hcalls site _ hs with hold | ⟨rfl, id, found, hid, hfound, index, hslot, hindex⟩
      · exact hw.functions site named i hsome hold
      · cases hsome
        obtain ⟨hg, rfl⟩ := Resolution.slot.inj hslot
        obtain rfl := h hg
        rw [resolveModule_eq hw rfl] at hid
        exact ⟨id, found, hid, hfound, hindex⟩

end Upkeep

/-! ## Meanings of calls -/

namespace Machine

open World

variable {env : Env} {program : ProgramId} {c : Call} {module : String} {m : Machine}

/-- What a call of a function of a module means. -/
def moduleMeaning (env : Env) (module : String) (c : Call) : Except EvalError Callable :=
  match (env.registry.moduleId? module).bind fun id => env.registry.modules[id]? with
  | none => .error (.unknownModule module c.span)
  | some found =>
    match (found.resolve? c.name c.arity).bind fun index => found.functions[index]? with
    | some callable => .ok callable
    | none => .error (.unresolvedModuleFunction module c.name c.arity c.span)

/-- A call means the innermost function around it, or else a callable of the registry. -/
theorem meaning_cases {ctx : Context} {callable : Callable}
    (h : meaning env ctx c = .ok callable) :
    (∃ f, ctx.findFunction? c.name c.arity = some f ∧ callable = .script f) ∨
      callable ∈ env.registry.callables := by
  unfold meaning at h
  split at h
  · next hf => cases h; exact .inl ⟨_, hf, rfl⟩
  · split at h
    · next hslot =>
      cases h
      obtain ⟨i, -, hi⟩ := Option.bind_eq_some_iff.mp hslot
      obtain ⟨hlt, rfl⟩ := Array.getElem?_eq_some_iff.mp hi
      exact .inr (List.mem_append_left _ (Array.getElem_mem_toList hlt))
    · cases h

/-- A call of a function of a module means a callable of the registry. -/
theorem moduleMeaning_mem {callable : Callable} (h : moduleMeaning env module c = .ok callable) :
    callable ∈ env.registry.callables := by
  unfold moduleMeaning at h
  split at h
  · cases h
  · next found hfound =>
    split at h
    · next hfunction =>
      cases h
      obtain ⟨id, -, hid⟩ := Option.bind_eq_some_iff.mp hfound
      obtain ⟨i, -, hi⟩ := Option.bind_eq_some_iff.mp hfunction
      obtain ⟨hlt, rfl⟩ := Array.getElem?_eq_some_iff.mp hid
      refine List.mem_append_right _ (List.mem_flatMap.mpr ⟨_, ?_, List.mem_of_getElem? hi⟩)
      exact Array.getElem_mem_toList hlt
    · cases h

theorem resolveIn_eq (h : m.world.Indexed env.registry) {site : CallSite} {id : Nat}
    {found : Module} (hs : site.module = some module)
    (hid : env.registry.moduleId? module = some id)
    (hfound : env.registry.modules[id]? = some found) :
    (m.resolveIn env site found).1 =
      (found.resolve? site.name site.arity).bind fun index => found.functions[index]? := by
  unfold resolveIn
  dsimp only
  split
  · next callable hrem =>
    -- the slot that the call remembers is the one that its module has for it
    split at hrem
    · next g i hl =>
      split at hrem
      · next hg =>
        subst hg
        obtain ⟨id', found', hid', hfound', hindex⟩ := h.functions site module i hs hl
        obtain rfl := Option.some.inj (hid.symm.trans hid')
        obtain rfl := Option.some.inj (hfound.symm.trans hfound')
        rw [hindex]
        exact hrem.symm
      · cases hrem
    · cases hrem
  · split
    · next hnone => rw [hnone]; rfl
    · next i hi => rw [hi]; rfl

theorem resolveModuleCall_eq_meaning (h : m.world.Indexed env.registry) (program : ProgramId)
    (module : String) (c : Call) :
    (m.resolveModuleCall env program module c).1 = moduleMeaning env module c := by
  have hid := resolveModule_eq h (show (c.moduleSite program module).module = some module from rfl)
  unfold resolveModuleCall moduleMeaning
  dsimp only
  rcases hmod : m.resolveModule env (c.moduleSite program module) module with ⟨_ | id, m₁⟩
  · rw [hmod] at hid
    rw [← hid]
    rfl
  · rw [hmod] at hid
    have hindexed : m₁.world.Indexed env.registry := by
      refine ⟨resolveModule_calls hmod ▸ h.slots, ?_, resolveModule_calls hmod ▸ h.functions⟩
      intro site named id' hs hl
      rcases resolveModule_learns hmod site _ hl with hold | ⟨rfl, -, hid'⟩
      · exact h.modules site named id' hs hold
      · cases hs
        exact hid'
    rw [← hid]
    dsimp only [Option.bind_some]
    cases hfound : env.registry.modules[id]? with
    | none => rfl
    | some found =>
      have hin := resolveIn_eq hindexed
        (show (c.moduleSite program module).module = some module from rfl) hid.symm hfound
      dsimp only
      rw [show (c.moduleSite program module).name = c.name from rfl,
        show (c.moduleSite program module).arity = c.arity from rfl] at hin
      rw [← hin]
      rcases m₁.resolveIn env (c.moduleSite program module) found with ⟨_ | callable, m₂⟩ <;> rfl

end Machine

end TierScript
