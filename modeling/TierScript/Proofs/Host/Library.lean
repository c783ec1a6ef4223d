import TierScript.Proofs.Host.Confinement
import TierScript.Proofs.Host.Scoping

/-!
# Programs from a library

Runs of programs that read no global variables, with host functions that keep to the context they
are given.

* `Action.Plain`: a host function that prints, writes through its context, evaluates its arguments,
  marks loops, and runs blocks that it has claimed on the context it is given.
* `Library`: programs without global variables. No statement of theirs reads one
  (`Library.spares`).
* `Settled`: a run in scope of a part of a library with plain host functions, on a machine on which
  sessions do not share variables. Its parts are such runs too (`Settled.enters`).
-/

namespace TierScript

/-! ## Host functions that keep to their context -/

/-- No variable of the list is a global one. -/
def Spared (vs : List Var) : Prop := ∀ v ∈ vs, v.tier ≠ .global

instance (vs : List Var) : Decidable (Spared vs) :=
  inferInstanceAs (Decidable (∀ v ∈ vs, v.tier ≠ .global))

/-- A host function that prints, writes variables through its context, evaluates expressions without
    global variables, marks loops and exits, and runs blocks that it has claimed on the context it
    is given. It may look at the context, but not at the number of the set of session variables. -/
def Action.Plain : Action → (Linked Block → Prop) → Prop
  | .done, _ | .fail _, _ => True
  | .evaluate e next, claimed => Spared e.reads ∧ ∀ r, (next r).Plain claimed
  | .look next, claimed =>
    (∀ c store, next { c with store } = next c) ∧ ∀ c, (next c).Plain claimed
  | .claim next, claimed => ∀ b, (next b).Plain fun x => claimed x ∨ b = some x
  | .run b next, claimed => claimed b ∧ ∀ r, (next r).Plain claimed
  | .breakLoop next, claimed => ∀ b, (next b).Plain claimed
  | .write _ _ next, claimed | .enterLoop next, claimed | .exitLoop next, claimed
  | .setExit next, claimed | .clearExit next, claimed | .print _ next, claimed
  | .note _ next, claimed => next.Plain claimed
  | .runApart .., _ | .spawn .., _ | .keep .., _ | .kept _, _ => False

namespace Action

variable {a a₁ : Action} {claimed : Linked Block → Prop} {m m' : Machine}

/-- Such a host function keeps nothing. -/
theorem Plain.direct (h : a.Plain claimed) : a.Direct claimed := by
  induction a generalizing claimed with
  | done | fail => trivial
  | evaluate e next ih => exact fun r => ih r (h.2 r)
  | look next ih => exact fun c => ih c (h.2 c)
  | claim next ih | breakLoop next ih => exact fun b => ih b (h b)
  | run b next ih => exact ⟨h.1, fun r => ih r (h.2 r)⟩
  | write | enterLoop | exitLoop | setExit | clearExit | print | note =>
    rename_i ih
    exact ih h
  | runApart | spawn | keep | kept => exact h.elim

/-- After a request that is answered at once, it is still such a host function. -/
theorem Plain.answer (h : a.Plain claimed) (ha : a.answer? m = some (a₁, m')) :
    ∃ claimed', a₁.Plain claimed' := by
  cases a with
  | done | fail | run | runApart | spawn => cases ha
  | keep | kept => exact h.elim
  | evaluate | look => cases ha; exact ⟨_, h.2 _⟩
  | claim | breakLoop => cases ha; exact ⟨_, h _⟩
  | write | enterLoop | exitLoop | setExit | clearExit | print | note => cases ha; exact ⟨_, h⟩

end Action

/-- The callable is a function of a script, or a plain host function if its arguments read no global
    variables. -/
def Callable.Tame : Callable → Prop
  | .native _ _ body => ∀ args, Spared (args.flatMap Expr.reads) → (body args).Plain fun _ => False
  | .script _ => True

/-! ## Libraries -/

/-- Programs that read no global variables. -/
structure Library where
  programs : List (Linked Block)
  spared : ∀ p ∈ programs, Spared p.node.reads

namespace Library

variable {lib : Library}

/-- No statement reads a global variable. -/
theorem spares {x : Place} (hx : x.In lib.programs) : Spared x.stmt.reads := by
  obtain ⟨p, hp, hx⟩ := hx
  exact fun v hv => lib.spared p hp v (Block.reads_places [] p.node x hx hv)

/-- No call does in its arguments. -/
theorem spares_args {args : List Expr} (h : Passes lib.programs args) :
    Spared (args.flatMap Expr.reads) := by
  obtain ⟨⟨program, scope, s⟩, hx, hargs⟩ := h
  have hspared := spares hx
  cases s with
  | call | moduleCall => cases hargs; rwa [Stmt.reads] at hspared
  | _ => cases hargs

end Library

/-! ## Runs of a library -/

namespace Eval

open Machine

/-- The job itself reads no global variables, apart from statements in it. -/
def Job.Spares : Job → Prop
  | .whileLoop condition _ => Spared condition.reads
  | .invoke callable args => callable.Tame ∧ Spared (args.flatMap Expr.reads)
  | .script _ args => Spared (args.flatMap Expr.reads)
  | .action _ a => ∃ claimed, a.Plain claimed
  | _ => True

/-- A run in scope of a part of the library with tame callables, on a machine on which sessions do
    not share variables. -/
structure Settled (lib : Library) (env : Env) (j : Job) (m : Machine) : Prop where
  aligned : Aligned lib.programs env j m
  tame : ∀ c ∈ env.registry.callables, c.Tame
  spares : j.Spares
  sound : m.Sound
  apart : m.world.stores.Apart

namespace Settled

variable {lib : Library} {env env' : Env} {j j' : Job} {m m' : Machine}

/-- The parts of a job read no global variables either. -/
theorem spares_part (h : Settled lib env j m) (he : Enters env j m env' j' m') : j'.Spares := by
  have hspares := h.spares
  have hstands := h.aligned.stands
  cases he with
  | stmtWhile =>
    have hreads := Library.spares hstands.1.here
    rw [Stmt.reads] at hreads
    exact fun v hv => hreads v (List.mem_append_left _ hv)
  | call hr =>
    refine ⟨?_, Library.spares_args ⟨_, hstands.1.here, rfl⟩⟩
    rcases h.aligned.resolved_cases hr with ⟨f, -, rfl⟩ | hmem
    · trivial
    · exact h.tame _ hmem
  | moduleCall hr =>
    have htame := h.tame _ (h.aligned.resolved_mem hr)
    exact ⟨htame, Library.spares_args ⟨_, hstands.1.here, rfl⟩⟩
  | whileNext => exact hspares
  | invokeScript => exact hspares.2
  | invokeNative => exact ⟨_, hspares.1 _ hspares.2⟩
  | request ha =>
    obtain ⟨claimed, hplain⟩ := hspares
    exact hplain.answer ha
  | afterRun =>
    obtain ⟨claimed, hplain⟩ := hspares
    exact ⟨claimed, hplain.2 _⟩
  | afterRunApart | afterSpawn | afterFailedSpawn =>
    obtain ⟨claimed, hplain⟩ := hspares
    exact hplain.elim
  | block | first | rest | stmtBlock | ifTrue | ifFalse | stmtFor | whileBody | forRange | forArray
  | timesBody | timesNext | forEachBody | forEachNext | body | run | runApart | spawn => trivial

/-- The parts of a settled run are settled. -/
theorem enters (h : Settled lib env j m) (he : Enters env j m env' j' m') :
    Settled lib env' j' m' where
  aligned := h.aligned.enters he
  tame := he.registry ▸ h.tame
  spares := h.spares_part he
  sound := he.sound h.sound
  apart := (he.confined h.sound).apart h.apart

end Settled

end Eval

end TierScript
