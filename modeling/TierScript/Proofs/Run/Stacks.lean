import TierScript.Host.Toolbox
import TierScript.Proofs.Run.Adequacy
import TierScript.Proofs.Run.Control

/-!
# Control stacks are restored

A run enters blocks, loops and calls, and it may end with an error anywhere. Whatever happens, it
leaves the stacks of its context as it found them.

* `Ends.framed`: the functions of the blocks around, the session, the depth and all offers but the
  innermost are kept by every job, and a job that is not itself part of a running statement keeps
  the innermost offer too. Nothing is asked of host functions here.
* `Ends.loopsKept`: the loop marks are kept too, but for the innermost one, which may be set, unless
  a host function enters or leaves loops itself.
* `control_stacks_restored`: both for blocks, and all loop marks for loops.
-/

namespace TierScript

/-! ## The frame of a context -/

/-- All that a statement may not touch: everything but variables, marks and the offer to it. -/
structure Context.Framed (c c' : Context) : Prop where
  session : c'.session = c.session
  store : c'.store = c.store
  lexical : c'.lexical = c.lexical
  depth : c'.depth = c.depth
  outer : c'.offers.tail = c.offers.tail
  height : c'.offers.length = c.offers.length

namespace Context

theorem Framed.refl (c : Context) : c.Framed c := ⟨rfl, rfl, rfl, rfl, rfl, rfl⟩

theorem Framed.trans {a b c : Context} (h : a.Framed b) (h' : b.Framed c) : a.Framed c where
  session := h'.session.trans h.session
  store := h'.store.trans h.store
  lexical := h'.lexical.trans h.lexical
  depth := h'.depth.trans h.depth
  outer := h'.outer.trans h.outer
  height := h'.height.trans h.height

theorem Framed.of_control {c c' : Context} (h : c'.control = c.control) : c.Framed c' := by
  obtain ⟨hs, ht, -, hl, ho, -, hd⟩ := control_eq_iff.mp h
  exact ⟨hs, ht, hl, hd, by rw [ho], by rw [ho]⟩

theorem framed_offer (c : Context) (block : Option (Linked Block)) : c.Framed (c.offer block) := by
  unfold offer
  split
  · exact .refl c
  · next heq => exact ⟨rfl, rfl, rfl, rfl, by rw [heq]; rfl, by rw [heq]; rfl⟩

theorem framed_claim (c : Context) : c.Framed c.claim.2 := by
  unfold claim
  split
  · exact .refl c
  · next heq =>
    split
    · exact .refl c
    · exact ⟨rfl, rfl, rfl, rfl, by rw [heq]; rfl, by rw [heq]; rfl⟩

theorem offer_loops (c : Context) (block : Option (Linked Block)) :
    (c.offer block).loops = c.loops := by
  unfold offer
  split <;> rfl

theorem claim_loops (c : Context) : c.claim.2.loops = c.loops := by
  unfold claim
  split
  · rfl
  · split <;> rfl

theorem framed_breakLoop (c : Context) : c.Framed c.breakLoop.2 := by
  unfold breakLoop
  split <;> exact ⟨rfl, rfl, rfl, rfl, rfl, rfl⟩

end Context

open Context in
theorem Action.framed_answer {a a₁ : Action} {m m₁ : Machine}
    (h : a.answer? m = some (a₁, m₁)) : m.ctx.Framed m₁.ctx := by
  cases a with
  | done | fail | run | runApart | spawn => cases h
  | evaluate | look | print | keep | kept | note => cases h; exact .refl _
  | write v value => cases h; exact .of_control (Machine.write_control m v value)
  | claim => cases h; exact framed_claim m.ctx
  | breakLoop => cases h; exact framed_breakLoop m.ctx
  | enterLoop | exitLoop | setExit | clearExit => cases h; exact ⟨rfl, rfl, rfl, rfl, rfl, rfl⟩

namespace Machine

theorem framed_breakOut {m m' : Machine} {span : Span} {r : Except EvalError Unit}
    (h : m.breakOut span = (r, m')) : m.ctx.Framed m'.ctx := by
  have hb := Context.framed_breakLoop m.ctx
  unfold breakOut at h
  split at h
  · next heq => cases h; rw [heq] at hb; exact hb
  · cases h; exact .refl _

/-- What happens to the functions and offers between entering and leaving a block. -/
theorem leaveBlock_restores {m m' : Machine} {b : Linked Block}
    (h : (m.enterBlock b).ctx.Framed m'.ctx) :
    m.ctx.Framed (m'.leaveBlock b).ctx ∧ (m'.leaveBlock b).ctx.offers = m.ctx.offers := by
  obtain ⟨hs, ht, hl, hd, ho, -⟩ := h
  simp only [enterBlock_session, enterBlock_store, enterBlock_depth, enterBlock_lexical,
    enterBlock_offers, List.tail_cons] at hs ht hd hl ho
  have hlex : (m'.leaveBlock b).ctx.lexical = m.ctx.lexical := by
    rw [leaveBlock_lexical, hl]
    split <;> rfl
  refine ⟨⟨by simpa using hs, by simpa using ht, hlex, by simpa using hd, ?_, ?_⟩, ?_⟩
  · rw [leaveBlock_offers, ho]
  · rw [leaveBlock_offers, ho]
  · rw [leaveBlock_offers, ho]

end Machine

namespace Eval

open Context Machine

/-! ## Runs keep the frame -/

/-- Whether a job keeps the innermost offer. The others are part of a statement that it was made
    to, and that may claim it. -/
def Job.keepsOffer : Job → Bool
  | .block _ | .whileLoop .. | .forLoop .. | .times .. | .forEach .. | .script .. => true
  | .stmts .. | .stmt .. | .invoke .. | .action .. => false

/-- The contexts before and after a job. -/
def Restores (j : Job) (c c' : Context) : Prop :=
  c.Framed c' ∧ (j.keepsOffer = true → c'.offers = c.offers)

theorem Restores.refl (j : Job) (c : Context) : Restores j c c := ⟨.refl c, fun _ => rfl⟩

theorem Restores.of_control {j : Job} {c c' : Context} (h : c'.control = c.control) :
    Restores j c c' := ⟨.of_control h, fun _ => (control_eq_iff.mp h).2.2.2.2.1⟩

/-- A job that starts after a change of variables. -/
theorem Restores.after_control {j : Job} {a b c : Context} (h : Restores j b c)
    (hb : b.control = a.control) : Restores j a c :=
  ⟨(Framed.of_control hb).trans h.1,
    fun hk => (h.2 hk).trans (control_eq_iff.mp hb).2.2.2.2.1⟩

/-- One job after another. -/
theorem Restores.seq {j₁ j₂ j : Job} {a b c : Context} (h₁ : Restores j₁ a b)
    (h₂ : Restores j₂ b c)
    (hj : j.keepsOffer = true → j₁.keepsOffer = true ∧ j₂.keepsOffer = true) : Restores j a c :=
  ⟨h₁.1.trans h₂.1, fun hk => (h₂.2 (hj hk).2).trans (h₁.2 (hj hk).1)⟩

/-- A job that stands for another one. -/
theorem Restores.as {j j₁ : Job} {a b : Context} (h : Restores j₁ a b)
    (hj : j.keepsOffer = true → j₁.keepsOffer = true) : Restores j a b :=
  ⟨h.1, fun hk => h.2 (hj hk)⟩

/-- A statement runs within a loop of its own. -/
theorem Restores.inLoop {j j₁ : Job} {a b : Context} (h : Restores j₁ a.enterLoop b)
    (hj : j.keepsOffer = true → j₁.keepsOffer = true) : Restores j a b.exitLoop := by
  obtain ⟨⟨hs, ht, hl, hd, ho, hh⟩, hk⟩ := h
  exact ⟨⟨hs, ht, hl, hd, ho, hh⟩, fun h => hk (hj h)⟩

theorem Ends.restores {env : Env} {j : Job} {m m' : Machine} {r : Except EvalError Unit}
    (h : Ends env j m r m') : Restores j m.ctx m'.ctx := by
  induction h with
  | block _ ih => exact ⟨(leaveBlock_restores ih.1).1, fun _ => (leaveBlock_restores ih.1).2⟩
  | stmtsNil | stmtsStop | ifError | ifNone | forDestError | forSrcError | whileStop | whileError
  | whileFalse | forSkip | timesStop | forEachNil | forEachStop | tooDeep | done | fail =>
    exact .refl _ _
  | stmtsError _ _ ih => exact ⟨(framed_offer _ _).trans ih.1, nofun⟩
  | stmtsNext _ _ _ ih₁ ih₂ => exact ⟨((framed_offer _ _).trans ih₁.1).trans ih₂.1, nofun⟩
  | stmtBlock _ ih | ifTrue _ _ ih | ifFalse _ _ ih | invokeScript _ ih | invokeNative _ ih =>
    exact ih.as nofun
  | assign h => exact .of_control (assign_control h)
  | stmtWhile _ ih => exact ih.inLoop nofun
  | stmtFor _ _ _ ih => exact ih.inLoop nofun
  | breakLoop h => exact ⟨framed_breakOut h, nofun⟩
  | endCode => exact ⟨⟨rfl, rfl, rfl, rfl, rfl, rfl⟩, nofun⟩
  | callError hr => rw [resolve_ctx hr]; exact .refl _ _
  | call hr _ ih => rw [resolve_ctx hr] at ih; exact ih.as nofun
  | moduleCallError hr => rw [resolveModuleCall_ctx hr]; exact .refl _ _
  | moduleCall hr _ ih => rw [resolveModuleCall_ctx hr] at ih; exact ih.as nofun
  | whileBodyError _ _ _ ih | forRange _ _ _ ih | forArray _ _ ih | timesError _ _ ih =>
    exact ih.as fun _ => rfl
  | whileNext _ _ _ _ ih₁ ih₂ | timesNext _ _ _ ih₁ ih₂ => exact ih₁.seq ih₂ fun _ => ⟨rfl, rfl⟩
  | forEachError _ _ ih =>
    exact (ih.after_control (write_control _ _ _)).as fun _ => rfl
  | forEachNext _ _ _ ih₁ ih₂ =>
    exact (ih₁.after_control (write_control _ _ _)).seq ih₂ fun _ => ⟨rfl, rfl⟩
  | badArgument | bodyError => exact .refl _ _
  | returned => exact .of_control (leaveCall_control _ _ _ _)
  | request ha _ ih => exact ⟨(Action.framed_answer ha).trans ih.1, nofun⟩
  | run _ _ ih₁ ih₂ => exact ih₁.seq ih₂ nofun
  | runApart _ _ _ ih | spawnOk _ _ _ ih | spawnError _ _ _ ih => exact ih

/-! ## Runs keep the loop marks -/

/-- The loop marks before and after a run: the innermost loop may have been broken. -/
def LoopsKept (before after : List Bool) : Prop :=
  after = before ∨ ∃ outer, before = false :: outer ∧ after = true :: outer

theorem LoopsKept.refl (l : List Bool) : LoopsKept l l := .inl rfl

theorem LoopsKept.of_eq {l l' : List Bool} (h : l' = l) : LoopsKept l l' := .inl h

theorem LoopsKept.trans {a b c : List Bool} (h : LoopsKept a b) (h' : LoopsKept b c) :
    LoopsKept a c := by
  rcases h with rfl | ⟨outer, rfl, rfl⟩
  · exact h'
  · rcases h' with rfl | ⟨outer', heq, -⟩
    · exact .inr ⟨outer, rfl, rfl⟩
    · cases heq

theorem LoopsKept.tail {l l' : List Bool} (h : LoopsKept l l') : l'.tail = l.tail := by
  rcases h with rfl | ⟨outer, rfl, rfl⟩ <;> rfl

theorem loopsKept_breakLoop (c : Context) : LoopsKept c.loops c.breakLoop.2.loops := by
  unfold Context.breakLoop
  split
  · exact .refl _
  · next broken outer heq =>
    cases broken with
    | false => exact .inr ⟨outer, heq, rfl⟩
    | true => exact .of_eq heq.symm

theorem loopsKept_breakOut {m m' : Machine} {span : Span} {r : Except EvalError Unit}
    (h : m.breakOut span = (r, m')) : LoopsKept m.ctx.loops m'.ctx.loops := by
  have hb := loopsKept_breakLoop m.ctx
  unfold breakOut at h
  split at h
  · next heq => cases h; rw [heq] at hb; exact hb
  · cases h; exact .refl _

/-- A request that neither enters nor leaves a loop. -/
def KeepsLoops : Action → Prop
  | .enterLoop _ | .exitLoop _ => False
  | _ => True

theorem loopsKept_answer {a a₁ : Action} {m m₁ : Machine} (ha : KeepsLoops a)
    (h : a.answer? m = some (a₁, m₁)) : LoopsKept m.ctx.loops m₁.ctx.loops := by
  cases a with
  | done | fail | run | runApart | spawn => cases h
  | evaluate | look | print | keep | kept | note | setExit | clearExit => cases h; exact .refl _
  | write v value => cases h; exact .of_eq (control_eq_iff.mp (write_control m v value)).2.2.1
  | claim => cases h; exact .of_eq (claim_loops m.ctx)
  | breakLoop => cases h; exact loopsKept_breakLoop m.ctx
  | enterLoop | exitLoop => exact ha.elim

theorem Ends.loopsKept {env : Env} {j : Job} {m m' : Machine} {r : Except EvalError Unit}
    (h : Ends env j m r m') (hr : env.registry.Every KeepsLoops) (hj : j.Every KeepsLoops) :
    LoopsKept m.ctx.loops m'.ctx.loops := by
  induction h with
  | block _ ih => simpa using ih hr trivial
  | stmtsNil | stmtsStop | ifError | ifNone | forDestError | forSrcError | whileStop | whileError
  | whileFalse | forSkip | timesStop | forEachNil | forEachStop | tooDeep | done | fail
  | endCode | badArgument | bodyError => exact .refl _
  | stmtsError _ _ ih => simpa [offering, offer_loops] using ih hr trivial
  | stmtsNext _ _ _ ih₁ ih₂ =>
    have h₁ := ih₁ hr trivial
    simp only [offering, modifyCtx_ctx, offer_loops] at h₁
    exact h₁.trans (ih₂ hr trivial)
  | stmtBlock _ ih | ifTrue _ _ ih | ifFalse _ _ ih | invokeScript _ ih | whileBodyError _ _ _ ih
  | forRange _ _ _ ih | forArray _ _ ih | timesError _ _ ih => exact ih hr trivial
  | invokeNative _ ih => exact ih hr (hj _)
  | assign h => exact .of_eq (control_eq_iff.mp (assign_control h)).2.2.1
  | stmtWhile _ ih => exact .of_eq (ih hr trivial).tail
  | stmtFor _ _ _ ih => exact .of_eq (ih hr trivial).tail
  | breakLoop h => exact loopsKept_breakOut h
  | callError hres => rw [resolve_ctx hres]; exact .refl _
  | call hres _ ih => rw [← resolve_ctx hres]; exact ih hr (resolve_every hr hres)
  | moduleCallError hres => rw [resolveModuleCall_ctx hres]; exact .refl _
  | moduleCall hres _ ih =>
    rw [← resolveModuleCall_ctx hres]
    exact ih hr (resolveModuleCall_every hr hres)
  | whileNext _ _ _ _ ih₁ ih₂ | timesNext _ _ _ ih₁ ih₂ =>
    exact (ih₁ hr trivial).trans (ih₂ hr trivial)
  | forEachError _ _ ih =>
    have h := ih hr trivial
    rwa [(control_eq_iff.mp (write_control _ _ _)).2.2.1] at h
  | forEachNext _ _ _ ih₁ ih₂ =>
    have h := ih₁ hr trivial
    rw [(control_eq_iff.mp (write_control _ _ _)).2.2.1] at h
    exact h.trans (ih₂ hr trivial)
  | returned => exact .of_eq (control_eq_iff.mp (leaveCall_control _ _ _ _)).2.2.1
  | request ha _ ih => exact (loopsKept_answer hj.self ha).trans (ih hr (hj.answer ha))
  | run _ _ ih₁ ih₂ => exact (ih₁ hr trivial).trans (ih₂ hr (hj.2 _))
  | runApart _ _ _ ih => exact ih hr (hj.2 _)
  | spawnOk _ _ _ ih | spawnError _ _ _ ih => exact ih hr hj.2

/-! ## Blocks and loops -/

/-- The statement is a loop. -/
def IsLoop : Stmt → Prop
  | .whileLoop .. | .forLoop .. => True
  | _ => False

theorem Ends.loop_loops {env : Env} {program : ProgramId} {s : Stmt} {m m' : Machine}
    {r : Except EvalError Unit} (hs : IsLoop s) (h : Ends env (.stmt program s) m r m')
    (hr : env.registry.Every KeepsLoops) : m'.ctx.loops = m.ctx.loops := by
  cases h with
  | stmtWhile hbody => exact (hbody.loopsKept hr trivial).tail
  | stmtFor _ _ hbody => exact (hbody.loopsKept hr trivial).tail
  | forDestError | forSrcError => rfl
  | _ => exact hs.elim

/-- If no host function of the registry enters or leaves a loop itself, a block that ends, with or
    without an error, leaves the functions around it, all offers, the session and the depth as they
    were, and of the loop marks at most the innermost one set; and a loop leaves all loop marks as
    they were. -/
theorem control_stacks_restored {env : Env} (hn : env.registry.Every KeepsLoops) :
    (∀ fuel b m r m', block env fuel b m = some (r, m') →
      m'.ctx.lexical = m.ctx.lexical ∧ m'.ctx.offers = m.ctx.offers ∧
      m'.ctx.session = m.ctx.session ∧ m'.ctx.store = m.ctx.store ∧
      m'.ctx.depth = m.ctx.depth ∧ LoopsKept m.ctx.loops m'.ctx.loops) ∧
    (∀ fuel program s m r m', IsLoop s → stmt env fuel program s m = some (r, m') →
      m'.ctx.loops = m.ctx.loops) := by
  constructor
  · intro fuel b m r m' h
    have hends := Ends.of_block h
    obtain ⟨hframe, hoffers⟩ := hends.restores
    exact ⟨hframe.lexical, hoffers rfl, hframe.session, hframe.store, hframe.depth,
      hends.loopsKept hn trivial⟩
  · intro fuel program s m r m' hs h
    exact (Ends.of_stmt h).loop_loops hs hn

/-- An environment whose only host function breaks the innermost loop. -/
def breaking : Env := { registry := ({ generation := 1 } : Registry).register 2 Tool.brk.callable }

theorem breaking_keepsLoops : breaking.registry.Every KeepsLoops := by
  intro c hc
  obtain rfl : c = Tool.brk.callable := by
    simpa [breaking, Registry.callables, Registry.register] using hc
  exact fun args => ⟨trivial, fun b => ⟨trivial, trivial⟩⟩

/-- A block with a function of its own that breaks the loop it is in, on a context with two loops,
    the outer one broken already. -/
theorem control_stacks_restored_breaking :
    let b : Linked Block :=
      ⟨1, ⟨[.call ⟨"brk", [], .first⟩], [⟨"f", [], [], default, .first⟩], .first⟩⟩
    let c : Context := { session := 1, store := 0, loops := [false, true], depth := 3 }
    ∃ m', block breaking 9 b ⟨c, {}⟩ = some (.ok (), m') ∧ m'.ctx.loops = [true, true] ∧
      m'.ctx.lexical = [] ∧ m'.ctx.offers = [] ∧ m'.ctx.depth = 3 := by
  intro b c
  refine ⟨_, rfl, rfl, ?_⟩
  obtain ⟨hlexical, hoffers, -, -, hdepth, -⟩ :=
    (control_stacks_restored breaking_keepsLoops).1 9 b ⟨c, {}⟩ (.ok ()) _ rfl
  exact ⟨hlexical, hoffers, hdepth⟩

end Eval

end TierScript
