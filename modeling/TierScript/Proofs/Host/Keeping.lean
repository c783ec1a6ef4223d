import TierScript.Proofs.Host.Learning
import TierScript.Proofs.Host.Scoping

/-!
# Workspaces that stay in scope

What a workspace runs is in scope if its callables suit the calls in its programs, and if it starts
where it stands. Then calls learn nothing wrong, and the workspace stays such. Which callables are
allowed is left open here.

* `Workspace.Kept`: the callables of all registries are allowed, and calls remember nothing wrong.
* `Kept.aligned_of`: what runs is in scope if allowed callables suit the calls.
* `Kept.serve`: a request keeps the workspace such if what it registers is allowed and what it runs
  is in scope.
-/

namespace TierScript

/-- The callables that a request registers. -/
def Request.registers : Request → List Callable
  | .register _ c => [c]
  | .registerModule _ m => m.functions
  | _ => []

namespace Workspace

/-- All callables are allowed, idle contexts were cleared, and calls remember nothing wrong. -/
structure Kept (allowed : Callable → Prop) (programs : List (Linked Block)) (ws : Workspace) :
    Prop where
  numbered : Numbered programs
  bounded : ∀ p ∈ programs, p.program < ws.fresh
  callables : ∀ r, ws.Holds r → ∀ c ∈ r.callables, allowed c
  cleared : ws.Cleared
  reached : Traffic.Reaches {} ⟨ws, []⟩
  placed : ws.world.Placed programs

variable {allowed allowed' : Callable → Prop} {programs : List (Linked Block)} {ws ws' : Workspace}
  {r : Request} {env : Env} {j : Eval.Job} {m : Machine}

theorem Starts.calls (h : Starts ws r env j m) : m.world.calls = ws.world.calls := by
  cases h <;> rfl

theorem load_eq_ok {source : Source} {p : Linked Block} (h : ws.load source = (.ok p, ws')) :
    parse source = .ok p.node ∧ p.program = ws.fresh ∧ ws' = { ws with fresh := ws.fresh + 1 } := by
  unfold Workspace.load at h
  split at h
  · cases h
  · next hparse => cases h; exact ⟨hparse, rfl, rfl⟩

namespace Kept

theorem empty (allowed : Callable → Prop) : Kept allowed [] {} where
  numbered := ⟨nofun, nofun⟩
  bounded := nofun
  callables r hr := by
    rcases hr with rfl | ⟨e, he, -⟩
    · nofun
    · cases he
  cleared := nofun
  reached := .refl
  placed := nofun

/-- What runs while a request is served is in scope, if it starts in no block and stands there. -/
theorem aligned_of (h : ws.Kept allowed programs)
    (hsuits : ∀ c args, allowed c → Passes programs args → c.Suits programs args)
    (hs : Starts ws r env j m) (hlexical : m.ctx.lexical = []) (hstands : j.Stands programs m.ctx) :
    Eval.Aligned programs env j m := by
  obtain ⟨i, henv, hran⟩ := hs.ran
  have hindexed := indexed_of_reaches h.reached (ws.holds_registry i)
  exact {
    numbered := h.numbered
    suits := fun c hc args => hsuits c args (h.callables _ (henv ▸ ws.holds_registry i) c hc)
    stands := hstands
    scope := by
      rw [hlexical]
      exact List.forall_mem_nil _
    cleared := hran.upkeep _ (upkeep_cleared _) (h.cleared.worldOf i)
    indexed := henv ▸ hran.upkeep _ (upkeep_indexed fun _ => rfl) (hindexed.of_eq rfl rfl)
    placed := h.placed.of_eq hs.calls }

/-- Nothing happens but that numbers are used up. -/
theorem recorded (h : ws.Kept allowed programs) (hrec : Recorded ws ws.world ws')
    (hpools : ws'.pools = ws.pools) : ws'.Kept allowed programs where
  numbered := h.numbered
  bounded p hp := Nat.lt_of_lt_of_le (h.bounded p hp) hrec.fresh
  callables r hr := h.callables r (hr.mono fun _ he => hrec.registries ▸ he)
  cleared e he := h.cleared e (hpools ▸ he)
  reached :=
    h.reached.tail (.other hrec.registries hrec.fresh hrec.calls hrec.moduleCalls)
  placed := h.placed.of_eq hrec.calls

/-- A program that is parsed has a number of its own. -/
theorem load (h : ws.Kept allowed programs) (hmono : ∀ c, allowed c → allowed' c) {source : Source}
    {p : Linked Block} (hload : ws.load source = (.ok p, ws')) :
    ws'.Kept allowed' (p :: programs) := by
  obtain ⟨hparse, hprogram, rfl⟩ := load_eq_ok hload
  have hnext : Kept allowed programs { ws with fresh := ws.fresh + 1 } :=
    h.recorded ⟨rfl, Nat.le_succ _, rfl, rfl⟩ rfl
  have hnew : ∀ q ∈ programs, q.program ≠ p.program := fun q hq =>
    hprogram ▸ Nat.ne_of_lt (h.bounded q hq)
  exact {
    numbered := h.numbered.add hparse hnew
    bounded := List.forall_mem_cons.mpr ⟨hprogram ▸ Nat.lt_succ_self _, hnext.bounded⟩
    callables := fun r hr c hc => hmono c (hnext.callables r hr c hc)
    cleared := hnext.cleared
    reached := hnext.reached
    placed := hnext.placed.mono (List.subset_cons_self p programs) }

theorem serve (h : ws.Kept allowed programs) (hnew : ∀ c ∈ r.registers, allowed c)
    (haligned : ∀ {env j m}, Starts ws r env j m → Eval.Aligned programs env j m) {a : Answer}
    (hserve : ws.serve r = some (a, ws')) : ws'.Kept allowed programs := by
  have halters := alters_serve hserve
  refine {
    numbered := h.numbered
    bounded := fun p hp => Nat.lt_of_lt_of_le (h.bounded p hp) halters.fresh_le
    callables := ?_
    cleared := (does_serve hserve).cleared_pools h.cleared
    reached := h.reached.trans (halters.reaches [])
    placed := ?_ }
  · intro registry hold
    rcases halters.holds hold with hold | rfl | ⟨_, c, i, rfl, rfl⟩ | ⟨_, m, i, rfl, hadded⟩
    · exact h.callables _ hold
    · nofun
    · intro c' hc'
      rcases Registry.mem_callables_register hc' with hc' | rfl
      · exact h.callables _ (ws.holds_registry i) c' hc'
      · exact hnew c' List.mem_cons_self
    · intro c hc
      rcases Registry.mem_callables_registerModule hadded hc with hc | hc
      · exact h.callables _ (ws.holds_registry i) c hc
      · exact hnew c hc
  · rcases halters.learns with hcalls | ⟨env, j, m, result, m', hs, hends, hcalls⟩
    · exact h.placed.of_eq hcalls
    · have hafter := (Eval.Aligned.carries programs).ends hends (haligned hs)
      exact hafter.of_eq hcalls

end Kept

end Workspace

end TierScript
