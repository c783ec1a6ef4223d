import TierScript.Run.Machine

/-!
# Requests of host functions

`Action.answer?` serves the requests that need no run of their own. `Action.Every p` says that a
host function makes only requests with the property `p`, however it is answered; a registry has that
property if all its host functions do. Calls then reach no other host function: what a call is
resolved to comes from the registry or is a function of the script.
-/

namespace TierScript

/-- Serves a request that needs no run: how the host function goes on, and on which machine. -/
def Action.answer? : Action → Machine → Option (Action × Machine)
  | .evaluate e next, m => some (next (e.eval m.lookup), m)
  | .write v value next, m => some (next, m.write v value)
  | .look next, m => some (next m.ctx, m)
  | .claim next, m => some (next m.ctx.claim.1, { m with ctx := m.ctx.claim.2 })
  | .enterLoop next, m => some (next, m.modifyCtx Context.enterLoop)
  | .exitLoop next, m => some (next, m.modifyCtx Context.exitLoop)
  | .breakLoop next, m => some (next m.ctx.breakLoop.1, { m with ctx := m.ctx.breakLoop.2 })
  | .setExit next, m => some (next, m.modifyCtx Context.setExit)
  | .clearExit next, m => some (next, m.modifyCtx Context.clearExit)
  | .print line next, m => some (next, { m with world := m.world.print line })
  | .keep b next, m => some (next, { m with world := { m.world with drawer := b } })
  | .kept next, m => some (next m.world.drawer, m)
  | .note e next, m => some (next, m.note e)
  | .done, _ | .fail _, _ | .run .., _ | .runApart .., _ | .spawn .., _ => none

/-- `p` holds of every request that a host function can make, whatever the answers are. -/
def Action.Every (p : Action → Prop) : Action → Prop
  | .done => p .done
  | .fail cause => p (.fail cause)
  | .evaluate e next => p (.evaluate e next) ∧ ∀ r, (next r).Every p
  | .write v value next => p (.write v value next) ∧ next.Every p
  | .look next => p (.look next) ∧ ∀ c, (next c).Every p
  | .claim next => p (.claim next) ∧ ∀ b, (next b).Every p
  | .run b next => p (.run b next) ∧ ∀ r, (next r).Every p
  | .runApart b next => p (.runApart b next) ∧ ∀ r, (next r).Every p
  | .spawn b next => p (.spawn b next) ∧ next.Every p
  | .enterLoop next => p (.enterLoop next) ∧ next.Every p
  | .exitLoop next => p (.exitLoop next) ∧ next.Every p
  | .breakLoop next => p (.breakLoop next) ∧ ∀ b, (next b).Every p
  | .setExit next => p (.setExit next) ∧ next.Every p
  | .clearExit next => p (.clearExit next) ∧ next.Every p
  | .print line next => p (.print line next) ∧ next.Every p
  | .keep b next => p (.keep b next) ∧ next.Every p
  | .kept next => p (.kept next) ∧ ∀ b, (next b).Every p
  | .note e next => p (.note e next) ∧ next.Every p

/-- `p` holds of every request that a callable can make of the interpreter, whatever it is given. -/
def Callable.Every (p : Action → Prop) : Callable → Prop
  | .native _ _ body => ∀ args, (body args).Every p
  | .script _ => True

/-- `p` holds of every request that a host function of the registry can make. -/
def Registry.Every (p : Action → Prop) (r : Registry) : Prop := ∀ c ∈ r.callables, c.Every p

namespace Action

variable {p : Action → Prop} {a a₁ : Action} {m m₁ : Machine}

theorem Every.self (h : a.Every p) : p a := by
  cases a with
  | done => exact h
  | fail => exact h
  | _ => exact h.1

theorem Every.answer (h : a.Every p) (ha : a.answer? m = some (a₁, m₁)) : a₁.Every p := by
  cases a with
  | done | fail | run | runApart | spawn => cases ha
  | evaluate | look | claim | breakLoop | kept => cases ha; exact h.2 _
  | write | enterLoop | exitLoop | setExit | clearExit | print | keep | note => cases ha; exact h.2

end Action

/-! ## What calls are resolved to -/

namespace Registry

variable {p : Action → Prop} {r : Registry} {c : Callable}

theorem Every.slot (h : r.Every p) {i : Nat} (hc : r.slots[i]? = some c) : c.Every p := by
  obtain ⟨hi, rfl⟩ := Array.getElem?_eq_some_iff.mp hc
  exact h _ (List.mem_append_left _ (Array.getElem_mem_toList hi))

theorem Every.function (h : r.Every p) {id i : Nat} {module : Module}
    (hm : r.modules[id]? = some module) (hc : module.functions[i]? = some c) : c.Every p := by
  obtain ⟨hid, rfl⟩ := Array.getElem?_eq_some_iff.mp hm
  refine h _ (List.mem_append_right _ (List.mem_flatMap.mpr ⟨_, Array.getElem_mem_toList hid, ?_⟩))
  exact List.mem_of_getElem? hc

end Registry

namespace Machine

variable {p : Action → Prop} {env : Env} {m m₁ : Machine} {callable : Callable}

theorem remembered?_every (h : env.registry.Every p) {site : CallSite}
    (hr : m.remembered? env site = some callable) : callable.Every p := by
  unfold remembered? at hr
  split at hr
  · split at hr
    · cases hr; trivial
    · cases hr
  · split at hr
    · exact h.slot hr
    · cases hr
  · cases hr

theorem search?_every (h : env.registry.Every p) {ctx : Context} {name : String} {arity : Nat}
    {resolution : Resolution} {event : Event}
    (hs : search? env ctx name arity = some (callable, resolution, event)) : callable.Every p := by
  unfold search? at hs
  split at hs
  · cases hs; trivial
  · obtain ⟨slot, -, hslot⟩ := Option.bind_eq_some_iff.mp hs
    obtain ⟨c, hc, heq⟩ := Option.map_eq_some_iff.mp hslot
    cases heq
    exact h.slot hc

theorem resolve_every (h : env.registry.Every p) {program : ProgramId} {c : Call}
    (hr : m.resolve env program c = (.ok callable, m₁)) : callable.Every p := by
  unfold resolve at hr
  dsimp only at hr
  split at hr
  · next hrem => cases hr; exact remembered?_every h hrem
  · split at hr
    · next hs => cases hr; exact search?_every h hs
    · cases hr

theorem resolveIn_every (h : env.registry.Every p) {site : CallSite} {id : Nat} {module : Module}
    (hm : env.registry.modules[id]? = some module)
    (hr : m.resolveIn env site module = (some callable, m₁)) : callable.Every p := by
  unfold resolveIn at hr
  dsimp only at hr
  split at hr
  · next hrem =>
    cases hr
    split at hrem
    · split at hrem
      · exact h.function hm hrem
      · cases hrem
    · cases hrem
  · split at hr
    · cases hr
    · exact h.function hm (Prod.mk.inj hr).1

theorem resolveModuleCall_every (h : env.registry.Every p) {program : ProgramId} {module : String}
    {c : Call} (hr : m.resolveModuleCall env program module c = (.ok callable, m₁)) :
    callable.Every p := by
  unfold resolveModuleCall at hr
  dsimp only at hr
  split at hr
  · cases hr
  · split at hr
    · cases hr
    · next hm =>
      split at hr
      · next hin => cases hr; exact resolveIn_every h hm hin
      · cases hr

end Machine

end TierScript
