import TierScript.Proofs.Host.History

/-!
# What calls remember

A call keeps the first answer it was resolved to. Here is when that can be noticed.

* `Workspace.Stamped`: generations belong to one registry each, and a slot that a call remembers is
  the one that every registry of that generation has for the call. It holds after every history.
* `Machine.meaning`: what a call means without any memory, the innermost function around it or else
  the callable of the registry.
* `Machine.Faithful`: what the call remembers agrees with what it means now.
* `resolve_eq_uncached_iff`: after every history a call is resolved to what it means if and only if
  its memory is faithful.
* `resolve_ne_uncached`: after some histories it is not. A remembered function of a script counts as
  long as it exists, also where it is not around the call any more.
-/

namespace TierScript

/-! ## Remembering -/

theorem lookup_remember {α : Type} {answers : List (CallSite × α)} {site s : CallSite} {a b : α}
    (h : (remember answers site a).lookup s = some b) :
    answers.lookup s = some b ∨ s = site ∧ b = a := by
  unfold remember at h
  split at h
  · exact .inl h
  · rw [List.lookup_cons] at h
    split at h
    · next heq => cases h; exact .inr ⟨by simpa using heq, rfl⟩
    · exact .inl h

namespace Machine

variable {env : Env} {program : ProgramId} {c : Call} {m m' : Machine}

/-- A call of a function that is resolved by the registry remembers the slot of the registry. -/
theorem resolve_remembers {r : Except EvalError Callable} (h : m.resolve env program c = (r, m'))
    {site : CallSite} {g i : Nat} (hs : m'.world.calls.lookup site = some (.slot g i)) :
    m.world.calls.lookup site = some (.slot g i) ∨
      site = c.site program ∧ g = env.registry.generation ∧
        env.registry.resolve? c.name c.arity = some i := by
  unfold resolve at h
  dsimp only at h
  split at h
  · cases h; exact .inl hs
  · split at h
    · next hsearch =>
      cases h
      rcases lookup_remember hs with hs | ⟨rfl, heq⟩
      · exact .inl hs
      · right
        unfold search? at hsearch
        split at hsearch
        · cases hsearch; cases heq
        · obtain ⟨slot, hslot, hfound⟩ := Option.bind_eq_some_iff.mp hsearch
          obtain ⟨callable, -, hpair⟩ := Option.map_eq_some_iff.mp hfound
          cases hpair
          cases heq
          exact ⟨rfl, rfl, hslot⟩
    · cases h; exact .inl hs

theorem resolveModule_calls {site : CallSite} {module : String} {id : Option Nat}
    (h : m.resolveModule env site module = (id, m')) : m'.world.calls = m.world.calls := by
  have fresh (h : resolveModule.fresh env site module m = (id, m')) :
      m'.world.calls = m.world.calls := by
    unfold resolveModule.fresh at h
    split at h <;> cases h <;> rfl
  unfold resolveModule at h
  split at h
  · split at h
    · cases h; rfl
    · exact fresh h
  · exact fresh h

theorem resolveIn_remembers {site s : CallSite} {module : Module} {r : Option Callable}
    (h : m.resolveIn env site module = (r, m')) (hs : s ≠ site) {a : Resolution}
    (ha : m'.world.calls.lookup s = some a) : m.world.calls.lookup s = some a := by
  unfold resolveIn at h
  dsimp only at h
  split at h
  · cases h; exact ha
  · split at h
    · cases h; exact ha
    · cases h
      rcases lookup_remember ha with ha | ⟨heq, -⟩
      · exact ha
      · exact absurd heq hs

/-- A call of a function of a module tells nothing to calls without a module. -/
theorem resolveModuleCall_remembers {module : String} {r : Except EvalError Callable}
    (h : m.resolveModuleCall env program module c = (r, m')) {site : CallSite}
    (hs : site.module = none) {a : Resolution} (ha : m'.world.calls.lookup site = some a) :
    m.world.calls.lookup site = some a := by
  have hne : site ≠ c.moduleSite program module := by
    rintro rfl
    cases hs
  unfold resolveModuleCall at h
  dsimp only at h
  split at h
  · next hmod => cases h; rwa [resolveModule_calls hmod] at ha
  · next hmod =>
    rw [← resolveModule_calls hmod]
    split at h
    · cases h; exact ha
    · split at h
      · next hin => cases h; exact resolveIn_remembers hin hne ha
      · next hin => cases h; exact resolveIn_remembers hin hne ha

end Machine

/-! ## Generations -/

namespace Workspace

/-- Generations are below the next number and belong to one registry each. A slot that a call
    remembers is the one that every registry of the generation has for the call. -/
structure Stamped (ws : Workspace) : Prop where
  positive : 0 < ws.fresh
  bounded : ∀ e ∈ ws.registries, 0 < e.2.generation ∧ e.2.generation < ws.fresh
  unique : ∀ e ∈ ws.registries, ∀ e' ∈ ws.registries,
    e.2.generation = e'.2.generation → e.2 = e'.2
  slots : ∀ site g i, site.module = none → ws.world.calls.lookup site = some (.slot g i) →
    0 < g ∧ g < ws.fresh ∧
      ∀ e ∈ ws.registries, e.2.generation = g → e.2.resolve? site.name site.arity = some i

namespace Stamped

variable {ws ws' : Workspace}

theorem empty : Stamped {} := ⟨Nat.one_pos, nofun, nofun, nofun⟩

/-- Registries may go, and numbers may be used up. -/
theorem mono (h : ws.Stamped) (hr : ∀ e ∈ ws'.registries, e ∈ ws.registries)
    (hf : ws.fresh ≤ ws'.fresh) (hc : ws'.world.calls = ws.world.calls) : ws'.Stamped := by
  refine ⟨Nat.lt_of_lt_of_le h.positive hf, ?_, ?_, ?_⟩
  · intro e he
    obtain ⟨hpos, hlt⟩ := h.bounded e (hr e he)
    exact ⟨hpos, Nat.lt_of_lt_of_le hlt hf⟩
  · intro e he e' he'
    exact h.unique e (hr e he) e' (hr e' he')
  · intro site g i hm hs
    rw [hc] at hs
    obtain ⟨hpos, hlt, hres⟩ := h.slots site g i hm hs
    exact ⟨hpos, Nat.lt_of_lt_of_le hlt hf, fun e he => hres e (hr e he)⟩

/-- A registry that is new or changed takes the next number, which no call remembers yet. -/
theorem change (h : ws.Stamped) {r : Registry} (hg : r.generation = ws.fresh)
    (hr : ∀ e ∈ ws'.registries, e ∈ ws.registries ∨ e.2 = r) (hf : ws'.fresh = ws.fresh + 1)
    (hc : ws'.world.calls = ws.world.calls) : ws'.Stamped := by
  have hpositive := h.positive
  refine ⟨by omega, ?_, ?_, ?_⟩
  · intro e he
    rcases hr e he with hold | rfl
    · have := h.bounded e hold
      omega
    · omega
  · intro e he e' he' heq
    rcases hr e he with hold | hnew <;> rcases hr e' he' with hold' | hnew'
    · exact h.unique e hold e' hold' heq
    · have := h.bounded e hold
      rw [heq, hnew'] at this
      omega
    · have := h.bounded e' hold'
      rw [← heq, hnew] at this
      omega
    · rw [hnew, hnew']
  · intro site g i hm hs
    rw [hc] at hs
    obtain ⟨hpos, hlt, hres⟩ := h.slots site g i hm hs
    refine ⟨hpos, by omega, ?_⟩
    intro e he heq
    rcases hr e he with hold | rfl
    · exact hres e hold heq
    · omega

theorem registry_cases (ws : Workspace) (i : Interpreter) :
    (∃ e ∈ ws.registries, e.2 = ws.registry i) ∨ ws.registry i = default := by
  unfold Workspace.registry
  cases hl : ws.registries.lookup i.registry with
  | none => exact .inr rfl
  | some r =>
    obtain ⟨before, after, hsplit, -⟩ := List.lookup_eq_some_iff.mp hl
    refine .inl ⟨(i.registry, r), ?_, rfl⟩
    rw [hsplit]
    exact List.mem_append_right _ List.mem_cons_self

/-- An interpreter remembers only what its registry answers. -/
theorem resolve (h : ws.Stamped) {i : Interpreter} {env : Env} {m m' : Machine}
    {program : ProgramId} {c : Call} {r : Except EvalError Callable}
    (henv : env.registry = ws.registry i) (hm : m.world.calls = ws.world.calls)
    (hr : m.resolve env program c = (r, m')) : Stamped { ws with world := m'.world } := by
  refine ⟨h.positive, h.bounded, h.unique, ?_⟩
  intro site g k hmod hs
  rcases Machine.resolve_remembers hr hs with hold | ⟨rfl, rfl, hres⟩
  · rw [hm] at hold
    exact h.slots site g k hmod hold
  · rcases registry_cases ws i with ⟨e, he, hei⟩ | hdefault
    · rw [henv, ← hei] at hres ⊢
      obtain ⟨hpos, hlt⟩ := h.bounded e he
      refine ⟨hpos, hlt, ?_⟩
      intro e' he' heq
      rw [h.unique e' he' e he heq]
      exact hres
    · -- an interpreter without a registry resolves nothing
      rw [henv, hdefault] at hres
      cases hres

theorem resolveModuleCall (h : ws.Stamped) {env : Env} {m m' : Machine} {program : ProgramId}
    {module : String} {c : Call} {r : Except EvalError Callable}
    (hm : m.world.calls = ws.world.calls)
    (hr : m.resolveModuleCall env program module c = (r, m')) :
    Stamped { ws with world := m'.world } := by
  refine ⟨h.positive, h.bounded, h.unique, ?_⟩
  intro site g k hmod hs
  have hold := Machine.resolveModuleCall_remembers hr hmod hs
  rw [hm] at hold
  exact h.slots site g k hmod hold

/-- A slot that a call remembers is what the registry answers, as long as the generation is the
    same. -/
theorem slot_current (h : ws.Stamped) {i : Interpreter} {registry : Registry}
    (hr : registry = ws.registry i) {site : CallSite} (hmod : site.module = none) {k : Nat}
    (hs : ws.world.calls.lookup site = some (.slot registry.generation k)) :
    registry.resolve? site.name site.arity = some k := by
  obtain ⟨hpos, -, hres⟩ := h.slots site _ k hmod hs
  rcases registry_cases ws i with ⟨e, he, hei⟩ | hdefault
  · rw [← hei] at hr
    subst hr
    exact hres e he rfl
  · rw [hr, hdefault] at hpos
    cases hpos

end Stamped

theorem mem_setRegistry {ws : Workspace} {i : Interpreter} {r : Registry} {e : Nat × Registry}
    (h : e ∈ (ws.setRegistry i r).registries) : e ∈ ws.registries ∨ e.2 = r := by
  obtain ⟨e', he', rfl⟩ := List.mem_map.mp h
  split
  · exact .inr rfl
  · exact .inl he'

theorem registerModule_generation {r r' : Registry} {generation : Nat} {m : Module}
    (h : r.registerModule generation m = .ok r') : r'.generation = generation := by
  unfold Registry.registerModule at h
  split at h <;> cases h
  rfl

theorem History.stamped {ws : Workspace} (h : History ws) : ws.Stamped := by
  induction h with
  | empty => exact .empty
  | @addInterpreter ws _ name session config ih =>
    refine ih.change (r := { generation := ws.fresh }) rfl ?_ rfl rfl
    intro e he
    rcases List.mem_cons.mp (List.mem_filter.mp he).1 with rfl | he
    · exact .inr rfl
    · exact .inl he
  | cloneInterpreter _ i name ih | dropInterpreter _ name ih =>
    exact ih.mono (fun e he => (List.mem_filter.mp he).1) (Nat.le_refl _) rfl
  | @register ws _ i c ih =>
    unfold Workspace.register
    split
    · exact ih
    · exact ih.change (r := (ws.registry i).register ws.fresh c) rfl
        (fun e he => mem_setRegistry he) rfl rfl
  | @registerModule ws _ i m ih =>
    unfold Workspace.registerModule
    split
    · exact ih
    · split
      · exact ih
      · next r hr =>
        exact ih.change (registerModule_generation hr) (fun e he => mem_setRegistry he) rfl rfl
  | resolve _ i henv hm hr ih => exact ih.resolve henv hm hr
  | resolveModuleCall _ i henv hm hr ih => exact ih.resolveModuleCall hm hr
  | other _ hr hf hc _ ih => exact ih.mono (fun e he => hr ▸ he) hf hc

end Workspace

/-! ## Memory and meaning -/

namespace Registry

variable {r : Registry} {i : Nat}

theorem firstWith?_slot {slots : List Nat} {arity : Arity} (h : r.firstWith? slots arity = some i) :
    ∃ c, r.slots[i]? = some c := by
  have hfound := List.find?_some h
  cases hs : r.slots[i]? with
  | none => rw [hs] at hfound; cases hfound
  | some c => exact ⟨c, rfl⟩

theorem resolve?_slot {name : String} {arity : Nat} (h : r.resolve? name arity = some i) :
    ∃ c, r.slots[i]? = some c := by
  obtain ⟨slots, -, hslot⟩ := Option.bind_eq_some_iff.mp h
  rcases Option.or_eq_some_iff.mp hslot with hexact | ⟨-, hany⟩
  · exact firstWith?_slot hexact
  · exact firstWith?_slot hany

end Registry

namespace Machine

/-- What a call means on a context: the innermost function around it, or else the callable of the
    registry. -/
def meaning (env : Env) (ctx : Context) (c : Call) : Except EvalError Callable :=
  match ctx.findFunction? c.name c.arity with
  | some f => .ok (.script f)
  | none =>
    match (env.registry.resolve? c.name c.arity).bind fun slot => env.registry.slots[slot]? with
    | some callable => .ok callable
    | none => .error (.unresolvedFunction c.name c.arity c.span)

/-- The machine on which no call remembers anything. -/
def uncached (m : Machine) : Machine := { m with world := { m.world with calls := [] } }

/-- The script function is the innermost one around the call, or there is none and the registry has
    it. -/
def InScope (env : Env) (ctx : Context) (c : Call) (f : Linked FnDef) : Prop :=
  ctx.findFunction? c.name c.arity = some f ∨
    ctx.findFunction? c.name c.arity = none ∧
      ∃ i, env.registry.resolve? c.name c.arity = some i ∧
        env.registry.slots[i]? = some (.script f)

/-- What a call remembers does not mislead it: a function that exists is in scope, and where a slot
    counts, there is no other function around the call. -/
structure Faithful (env : Env) (program : ProgramId) (c : Call) (m : Machine) : Prop where
  nested : ∀ f, m.world.calls.lookup (c.site program) = some (.nested f) →
    env.exists? m.world.drawer f = true → InScope env m.ctx c f
  slot : ∀ i f, m.world.calls.lookup (c.site program) = some (.slot env.registry.generation i) →
    m.ctx.findFunction? c.name c.arity = some f → env.registry.slots[i]? = some (.script f)

section Meaning

variable {env : Env} {m : Machine} {program : ProgramId} {c : Call}

theorem meaning_of_found {ctx : Context} {f : Linked FnDef}
    (h : ctx.findFunction? c.name c.arity = some f) : meaning env ctx c = .ok (.script f) := by
  rw [meaning, h]

theorem meaning_of_slot {ctx : Context} {i : Nat} {callable : Callable}
    (hf : ctx.findFunction? c.name c.arity = none)
    (hr : env.registry.resolve? c.name c.arity = some i)
    (hs : env.registry.slots[i]? = some callable) : meaning env ctx c = .ok callable := by
  rw [meaning, hf, hr]
  dsimp only [Option.bind_some]
  rw [hs]

theorem meaning_eq_script_iff {ctx : Context} {f : Linked FnDef} :
    meaning env ctx c = .ok (.script f) ↔ InScope env ctx c f := by
  constructor
  · intro h
    unfold meaning at h
    split at h
    · next hf => cases h; exact .inl hf
    · next hf =>
      split at h
      · next hslot =>
        cases h
        obtain ⟨i, hi, hs⟩ := Option.bind_eq_some_iff.mp hslot
        exact .inr ⟨hf, i, hi, hs⟩
      · cases h
  · rintro (hf | ⟨hf, i, hi, hs⟩)
    · exact meaning_of_found hf
    · exact meaning_of_slot hf hi hs

theorem resolve_of_remembered {callable : Callable}
    (h : m.remembered? env (c.site program) = some callable) :
    (m.resolve env program c).1 = .ok callable := by
  unfold resolve
  dsimp only
  rw [h]

theorem resolve_of_forgotten (h : m.remembered? env (c.site program) = none) :
    (m.resolve env program c).1 = meaning env m.ctx c := by
  unfold resolve
  dsimp only
  rw [h]
  unfold search? meaning
  cases m.ctx.findFunction? c.name c.arity with
  | some f => rfl
  | none =>
    cases env.registry.resolve? c.name c.arity with
    | none => rfl
    | some slot => cases hs : env.registry.slots[slot]? <;> simp [hs]

theorem resolve_uncached (env : Env) (m : Machine) (program : ProgramId) (c : Call) :
    (m.uncached.resolve env program c).1 = meaning env m.ctx c :=
  resolve_of_forgotten (m := m.uncached) rfl

/-- A call that remembers a script function which exists. -/
theorem resolve_nested_iff {f : Linked FnDef}
    (hl : m.world.calls.lookup (c.site program) = some (.nested f))
    (hexists : env.exists? m.world.drawer f = true) :
    (m.resolve env program c).1 = meaning env m.ctx c ↔ InScope env m.ctx c f := by
  have hrem : m.remembered? env (c.site program) = some (.script f) := by
    simp [remembered?, hl, hexists]
  rw [resolve_of_remembered hrem, ← meaning_eq_script_iff]
  exact eq_comm

/-- A call that remembers the slot which the registry has for it. -/
theorem resolve_slot_iff {i : Nat}
    (hl : m.world.calls.lookup (c.site program) = some (.slot env.registry.generation i))
    (hr : env.registry.resolve? c.name c.arity = some i) :
    (m.resolve env program c).1 = meaning env m.ctx c ↔
      ∀ f, m.ctx.findFunction? c.name c.arity = some f →
        env.registry.slots[i]? = some (.script f) := by
  obtain ⟨callable, hs⟩ := Registry.resolve?_slot hr
  have hrem : m.remembered? env (c.site program) = some callable := by
    simp [remembered?, hl, hs]
  rw [resolve_of_remembered hrem, hs]
  cases hf : m.ctx.findFunction? c.name c.arity with
  | none => simp [meaning_of_slot hf hr hs]
  | some f => simp [meaning_of_found hf]

end Meaning

end Machine

namespace Workspace

open Machine

/-- After every history, what an interpreter resolves a call to is what the call means if and only
    if the call is not misled by what it remembers. -/
theorem resolve_eq_uncached_iff {ws : Workspace} (h : History ws) {i : Interpreter} {env : Env}
    (henv : env.registry = ws.registry i) {m : Machine} (hm : m.world.calls = ws.world.calls)
    (program : ProgramId) (c : Call) :
    (m.uncached.resolve env program c).1 = meaning env m.ctx c ∧
      ((m.resolve env program c).1 = (m.uncached.resolve env program c).1 ↔
        Faithful env program c m) := by
  refine ⟨resolve_uncached env m program c, ?_⟩
  rw [resolve_uncached]
  cases hl : m.world.calls.lookup (c.site program) with
  | none =>
    have hrem : m.remembered? env (c.site program) = none := by simp [remembered?, hl]
    exact iff_of_true (resolve_of_forgotten hrem) ⟨by simp [hl], by simp [hl]⟩
  | some a =>
    cases a with
    | nested f =>
      cases hexists : env.exists? m.world.drawer f with
      | false =>
        have hrem : m.remembered? env (c.site program) = none := by
          simp [remembered?, hl, hexists]
        exact iff_of_true (resolve_of_forgotten hrem) ⟨by simp [hl, hexists], by simp [hl]⟩
      | true =>
        rw [resolve_nested_iff hl hexists]
        constructor
        · intro hf
          exact ⟨by simp [hl, hf], by simp [hl]⟩
        · intro hfaithful
          exact hfaithful.nested f hl hexists
    | slot g k =>
      by_cases hg : g = env.registry.generation
      · subst hg
        have hs := hl
        rw [hm] at hs
        have hres : env.registry.resolve? c.name c.arity = some k :=
          h.stamped.slot_current henv (show (c.site program).module = none from rfl) hs
        rw [resolve_slot_iff hl hres]
        constructor
        · intro hf
          refine ⟨by simp [hl], ?_⟩
          intro i f hi
          rw [hl] at hi
          cases hi
          exact hf f
        · intro hfaithful f
          exact hfaithful.slot k f hl
      · have hrem : m.remembered? env (c.site program) = none := by simp [remembered?, hl, hg]
        exact iff_of_true (resolve_of_forgotten hrem) ⟨by simp [hl], by simp [hl, hg]⟩

/-! ## A call that is misled -/

/-- The only interpreter of `keeping`. -/
def keeper : Interpreter := ⟨1, {}, 1, 1⟩

/-- A workspace with an interpreter that can keep a block for later. -/
def keeping : Workspace :=
  (((({} : Workspace).addInterpreter "main" 1 {}).register keeper Tool.keep.callable).2.register
    keeper Tool.kept.callable).2

theorem keeping_history : History keeping :=
  ((History.empty.addInterpreter "main" 1 {}).register keeper _).register keeper _

/-- A function without parameters and without statements. -/
def idle : FnDef := ⟨"f", [], [], ⟨[], [], .first⟩, .first⟩

/-- A call of a function without arguments. -/
def calling (name : String) : Call := ⟨name, [], .first⟩

/-- Defines `f`, keeps a block that calls it, and runs that block. -/
def keepsCall : Linked Block :=
  ⟨9, ⟨[.call (calling "keep"), .block ⟨[.call (calling "f")], [], .first⟩, .call (calling "kept")],
    [idle], .first⟩⟩

/-- A context on which nothing has happened yet. -/
def blankContext : Context := { session := 1, store := 0 }

/-- After the program, on a new context, the call of `f` in the block that was kept is still
    resolved to the function of the program. -/
theorem keepsCall_remembers :
    ∃ w, History { keeping with world := w } ∧
      (resolve (keeping.env keeper [9]) 9 (calling "f") ⟨blankContext, w⟩).1 =
        .ok (.script ⟨9, idle⟩) ∧
      (resolve (keeping.env keeper [9]) 9 (calling "kept") ⟨blankContext, w⟩).1 =
        .ok Tool.kept.callable := by
  have hrun : ∃ m, Eval.program (keeping.env keeper [9]) 20 keepsCall ⟨blankContext, {}⟩ =
        some (.ok (), m) ∧
      (resolve (keeping.env keeper [9]) 9 (calling "f") ⟨blankContext, m.world⟩).1 =
        .ok (.script ⟨9, idle⟩) ∧
      (resolve (keeping.env keeper [9]) 9 (calling "kept") ⟨blankContext, m.world⟩).1 =
        .ok Tool.kept.callable := ⟨_, rfl, rfl, rfl⟩
  obtain ⟨m, hm, hresolved⟩ := hrun
  exact ⟨m.world, keeping_history.ends keeper (.of_block hm) rfl rfl, hresolved⟩

/-- On a context without functions the call means nothing, but is resolved to a function. -/
theorem resolve_ne_uncached :
    ¬ ∀ (ws : Workspace) (i : Interpreter) (env : Env) (m : Machine) (program : ProgramId)
        (c : Call),
      History ws → env.registry = ws.registry i → m.world.calls = ws.world.calls →
      (m.resolve env program c).1 = (m.uncached.resolve env program c).1 := by
  intro hall
  obtain ⟨w, hpast, hf, -⟩ := keepsCall_remembers
  have heq := hall _ keeper (keeping.env keeper [9]) ⟨blankContext, w⟩ 9 (calling "f") hpast rfl rfl
  rw [hf, resolve_uncached] at heq
  cases heq

/-- The call of `f` is misled there, the call of `kept` is not. -/
theorem resolve_eq_uncached_iff_keeping :
    ∃ w, History { keeping with world := w } ∧
      ¬ Faithful (keeping.env keeper [9]) 9 (calling "f") ⟨blankContext, w⟩ ∧
      Faithful (keeping.env keeper [9]) 9 (calling "kept") ⟨blankContext, w⟩ := by
  obtain ⟨w, hpast, hf, hkept⟩ := keepsCall_remembers
  have hiff (c : Call) := (resolve_eq_uncached_iff hpast (i := keeper)
    (show (keeping.env keeper [9]).registry = _ from rfl) (m := ⟨blankContext, w⟩) rfl 9 c).2
  refine ⟨w, hpast, ?_, ?_⟩
  · intro hfaithful
    have heq := (hiff (calling "f")).mpr hfaithful
    rw [hf, resolve_uncached] at heq
    cases heq
  · refine (hiff (calling "kept")).mp ?_
    rw [hkept, resolve_uncached]
    rfl

end Workspace

end TierScript
