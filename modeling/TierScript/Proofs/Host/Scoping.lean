import TierScript.Proofs.Host.Resolution
import TierScript.Proofs.Program.Places
import TierScript.Proofs.Run.Attachment
import TierScript.Proofs.Run.Memory
import TierScript.Proofs.Run.Pooling

/-!
# Scopes at run time

A context keeps the functions of the blocks that it is in. They are pushed and popped as blocks are
entered and left, and a call starts without any. Here this stack is shown to be what can be read off
the text: the scope of the statement that runs.

* `Action.Direct`: a host function that keeps nothing, and runs only blocks that it has claimed, on
  the context it is given.
* `Place.In`: where statements of parsed programs stand. A statement stands in one scope only
  (`Numbered.unique`).
* `Callable.Suits`: what calls in the programs may get hold of with the arguments that they have.
* `Aligned`: a run of a part of the programs, on a context whose functions are the scope of that
  part. Its parts are such runs too (`Aligned.enters`), at every moment (`Aligned.reaches`).
* `Aligned.resolve_eq`: so a call is resolved to what it means, whatever it remembers.
-/

namespace TierScript

/-! ## Host functions that keep nothing -/

/-- A host function that keeps nothing, and runs only blocks that it has claimed, on the context it
    is given. -/
def Action.Direct : Action → (Linked Block → Prop) → Prop
  | .done, _ | .fail _, _ => True
  | .evaluate _ next, claimed => ∀ r, (next r).Direct claimed
  | .look next, claimed => ∀ c, (next c).Direct claimed
  | .claim next, claimed => ∀ b, (next b).Direct fun x => claimed x ∨ b = some x
  | .run b next, claimed => claimed b ∧ ∀ r, (next r).Direct claimed
  | .breakLoop next, claimed => ∀ b, (next b).Direct claimed
  | .write _ _ next, claimed | .enterLoop next, claimed | .exitLoop next, claimed
  | .setExit next, claimed | .clearExit next, claimed | .print _ next, claimed
  | .note _ next, claimed => next.Direct claimed
  | .runApart .., _ | .spawn .., _ | .keep .., _ | .kept _, _ => False

/-- After a request that is answered at once, such a host function has claimed at most the block on
    offer, and that is not on offer any more. -/
theorem Action.Direct.answer {a a₁ : Action} {claimed : Linked Block → Prop} {m m' : Machine}
    (h : a.Direct claimed) (ha : a.answer? m = some (a₁, m')) :
    (∃ claimed', a₁.Direct claimed' ∧ ∀ b, claimed' b → claimed b ∨ m.ctx.attached? = some b) ∧
      ∀ b, m'.ctx.attached? = some b → m.ctx.attached? = some b := by
  cases a with
  | done | fail | run | runApart | spawn => cases ha
  | keep | kept => exact h.elim
  | evaluate | look => cases ha; exact ⟨⟨claimed, h _, fun _ => .inl⟩, fun _ => id⟩
  | print | note | enterLoop | exitLoop | setExit | clearExit =>
    cases ha
    exact ⟨⟨claimed, h, fun _ => .inl⟩, fun _ => id⟩
  | write v value next =>
    cases ha
    have hoffers := (Context.control_eq_iff.mp (m.write_control v value)).2.2.2.2.1
    refine ⟨⟨claimed, h, fun _ => .inl⟩, fun b hb => ?_⟩
    rwa [Context.attached?, hoffers] at hb
  | breakLoop next =>
    cases ha
    refine ⟨⟨claimed, h _, fun _ => .inl⟩, fun b hb => ?_⟩
    have hoffers : m.ctx.breakLoop.2.offers = m.ctx.offers := by
      unfold Context.breakLoop
      split <;> rfl
    rwa [Context.attached?, hoffers] at hb
  | claim next =>
    cases ha
    refine ⟨⟨_, h _, fun b hb => ?_⟩, fun b hb => ?_⟩
    · exact hb.imp_right fun hb => Eval.claim_fst m.ctx ▸ hb
    · rw [Eval.attached?_claim] at hb
      cases hb

/-! ## Statements of parsed programs -/

/-- The programs were parsed, and each has a number of its own. -/
structure Numbered (programs : List (Linked Block)) : Prop where
  parsed : ∀ p ∈ programs, ∃ source, parse source = .ok p.node
  distinct : ∀ p ∈ programs, ∀ q ∈ programs, p.program = q.program → p = q

/-- The statement stands in one of the programs, in that scope. -/
def Place.In (programs : List (Linked Block)) (x : Place) : Prop :=
  ∃ p ∈ programs, x ∈ p.node.places p.program []

namespace Numbered

variable {programs : List (Linked Block)}

/-- A program is added that has a number of its own. -/
theorem add (h : Numbered programs) {source : Source} {p : Linked Block}
    (hparse : parse source = .ok p.node) (hnew : ∀ q ∈ programs, q.program ≠ p.program) :
    Numbered (p :: programs) where
  parsed := List.forall_mem_cons.mpr ⟨⟨source, hparse⟩, h.parsed⟩
  distinct := by
    intro q hq r hr heq
    rcases List.mem_cons.mp hq with hqp | hq <;> rcases List.mem_cons.mp hr with hrp | hr
    · rw [hqp, hrp]
    · exact absurd (hqp ▸ heq.symm) (hnew r hr)
    · exact absurd (hrp ▸ heq) (hnew q hq)
    · exact h.distinct q hq r hr heq

/-- The start of a statement tells the statement and its scope. -/
theorem unique (h : Numbered programs) {x y : Place} (hx : x.In programs) (hy : y.In programs)
    (hprogram : x.program = y.program) (hstart : x.start = y.start) : x = y := by
  obtain ⟨p, hp, hx⟩ := hx
  obtain ⟨q, hq, hy⟩ := hy
  have hnumbers : p.program = q.program := by
    rw [← Block.places_program [] p.node x hx, ← Block.places_program [] q.node y hy, hprogram]
  obtain rfl := h.distinct p hp q hq hnumbers
  obtain ⟨source, hparse⟩ := h.parsed p hp
  exact place_unique hparse hx hy hstart

/-- The site of a call without a module tells where it stands. -/
theorem call_unique (h : Numbered programs) {program : ProgramId} {scope scope' : Scope}
    {c c' : Call} (hx : (⟨program, scope, .call c⟩ : Place).In programs)
    (hy : (⟨program, scope', .call c'⟩ : Place).In programs)
    (hsite : c.site program = c'.site program) : scope = scope' ∧ c = c' := by
  have hspan : c.span = c'.span := congrArg CallSite.span hsite
  have hplace := h.unique hx hy rfl (congrArg Span.start hspan)
  cases hplace
  exact ⟨rfl, rfl⟩

end Numbered

/-- All of the statements stand in the programs. -/
def Stand (programs : List (Linked Block)) (xs : List Place) : Prop := ∀ x ∈ xs, x.In programs

section Stand

variable {programs : List (Linked Block)} {program : ProgramId} {scope : Scope} {xs ys : List Place}

theorem stand_append : Stand programs (xs ++ ys) ↔ Stand programs xs ∧ Stand programs ys :=
  List.forall_mem_append

theorem stand_block {b : Block} :
    Stand programs (b.places program scope) ↔
      Stand programs (Stmt.placesAll program (scope.push program b.functions) b.stmts) ∧
        Stand programs (FnDef.placesAll program b.functions) := by
  obtain ⟨stmts, functions, span⟩ := b
  rw [Block.places]
  exact stand_append

theorem stand_cons {s : Stmt} {rest : List Stmt} :
    Stand programs (Stmt.placesAll program scope (s :: rest)) ↔
      Stand programs (s.places program scope) ∧
        Stand programs (Stmt.placesAll program scope rest) := by
  rw [Stmt.placesAll_cons]
  exact stand_append

theorem stand_program {p : Linked Block} (hp : p ∈ programs) :
    Stand programs (p.node.places p.program []) := fun _ hx => ⟨p, hp, hx⟩

namespace Stand

variable {s : Stmt} {rest : List Stmt}

theorem here (h : Stand programs (s.places program scope)) :
    (⟨program, scope, s⟩ : Place).In programs := h _ List.mem_cons_self

theorem inner (h : Stand programs (s.places program scope)) :
    Stand programs (s.inner program scope) := fun x hx => h x (List.mem_cons_of_mem _ hx)

theorem branches {condition : Conditions} {body : Block} {otherwise : Option Block} {span : Span}
    (h : Stand programs (Stmt.places program scope (.ifElse condition body otherwise span))) :
    Stand programs (body.places program scope) ∧
      Stand programs (Block.placesOption program scope otherwise) := by
  have hinner := h.inner
  rw [Stmt.inner] at hinner
  exact stand_append.mp hinner

theorem tail (h : Stand programs (Stmt.placesAll program scope rest)) :
    Stand programs (Stmt.placesAll program scope rest.tail) := by
  cases rest with
  | nil => exact h
  | cons s rest => exact (stand_cons.mp h).2

theorem remaining (h : Stand programs (Stmt.placesAll program scope rest)) (m : Machine) :
    Stand programs (Stmt.placesAll program scope (Eval.remaining rest m)) := by
  unfold Eval.remaining
  split
  · exact h.tail
  · exact h

theorem following (h : Stand programs (Stmt.placesAll program scope rest)) {b : Linked Block}
    (hb : Eval.following program rest = some b) :
    Stand programs (b.node.places b.program scope) := by
  cases rest with
  | nil => cases hb
  | cons s rest =>
    cases s with
    | block body => cases hb; exact (stand_cons.mp h).1.inner
    | _ => cases hb

theorem function {fs : List FnDef} (h : Stand programs (FnDef.placesAll program fs)) {f : FnDef}
    (hf : f ∈ fs) : Stand programs (f.places program) := by
  induction fs with
  | nil => cases hf
  | cons g fs ih =>
    rw [FnDef.placesAll, stand_append] at h
    rcases List.mem_cons.mp hf with rfl | hf
    · exact h.1
    · exact ih h.2 hf

theorem mono {programs' : List (Linked Block)} (h : Stand programs xs)
    (hsub : programs ⊆ programs') : Stand programs' xs := by
  intro x hx
  obtain ⟨p, hp, hx⟩ := h x hx
  exact ⟨p, hsub hp, hx⟩

end Stand

/-- What is in the functions of the scope stands in the programs. -/
def ScopeStands (programs : List (Linked Block)) (scope : Scope) : Prop :=
  ∀ table ∈ scope, Stand programs (FnDef.placesAll table.program table.node)

theorem ScopeStands.push (h : ScopeStands programs scope) {functions : List FnDef}
    (hf : Stand programs (FnDef.placesAll program functions)) :
    ScopeStands programs (scope.push program functions) := by
  unfold Scope.push
  split
  · exact h
  · exact List.forall_mem_cons.mpr ⟨hf, h⟩

theorem ScopeStands.find (h : ScopeStands programs scope) {name : String} {arity : Nat}
    {f : Linked FnDef} (hf : scope.find? name arity = some f) :
    Stand programs (f.node.places f.program) := by
  obtain ⟨table, htable, hfound⟩ := List.exists_of_findSome?_eq_some hf
  obtain ⟨g, hg, rfl⟩ := Option.map_eq_some_iff.mp hfound
  exact (h table htable).function (List.mem_of_find?_eq_some hg)

end Stand

/-! ## Callables and what calls remember -/

/-- The callable is a host function that keeps nothing and runs claimed blocks only, or a function
    of the programs. -/
def Callable.Proper (programs : List (Linked Block)) : Callable → Prop
  | .native _ _ body => ∀ args, (body args).Direct fun _ => False
  | .script f => Stand programs (f.node.places f.program)

/-- The arguments of a call. -/
def Stmt.args? : Stmt → Option (List Expr)
  | .call c | .moduleCall _ c => some c.args
  | _ => none

/-- Some call in the programs has these arguments. -/
def Passes (programs : List (Linked Block)) (args : List Expr) : Prop :=
  ∃ x : Place, x.In programs ∧ x.stmt.args? = some args

/-- With these arguments, the callable is a host function that keeps nothing and runs claimed blocks
    only, or it is a function of the programs. -/
def Callable.Suits (programs : List (Linked Block)) (args : List Expr) : Callable → Prop
  | .native _ _ body => (body args).Direct fun _ => False
  | .script f => Stand programs (f.node.places f.program)

theorem Callable.Proper.suits {programs : List (Linked Block)} {c : Callable}
    (h : c.Proper programs) (args : List Expr) : c.Suits programs args := by
  cases c with
  | native => exact h args
  | script => exact h

/-- All callables of the registry suit the calls in the programs. -/
def Registry.Suits (programs : List (Linked Block)) (r : Registry) : Prop :=
  ∀ c ∈ r.callables, ∀ args, Passes programs args → c.Suits programs args

/-! ## What calls remember -/

/-- What the call remembers agrees with its scope: a function is the one that its scope has for it,
    and a slot means that its scope has none. -/
def Call.Agrees (c : Call) (scope : Scope) : Resolution → Prop
  | .nested f => scope.find? c.name c.arity = some f
  | .slot .. => scope.find? c.name c.arity = none

/-- What calls without a module remember agrees with where they stand in the programs. -/
def World.Placed (programs : List (Linked Block)) (w : World) : Prop :=
  ∀ site a, site.module = none → w.calls.lookup site = some a →
    ∃ scope c, (⟨site.program, scope, .call c⟩ : Place).In programs ∧
      c.site site.program = site ∧ c.Agrees scope a

section Placed

open Machine

variable {programs : List (Linked Block)} {env : Env} {program : ProgramId} {c : Call}
  {m m' : Machine} {w w' : World}

theorem Machine.Found.agrees {ctx : Context} {a : Resolution} (h : Found env ctx c a) :
    c.Agrees ctx.lexical a := by
  cases a with
  | nested f => exact h
  | slot g i => exact h.1

theorem World.Placed.of_eq (h : w.Placed programs) (hc : w'.calls = w.calls) :
    w'.Placed programs := by
  rw [World.Placed, hc]
  exact h

theorem placed_resolve {r : Except EvalError Callable} (h : m.world.Placed programs)
    (hx : (⟨program, m.ctx.lexical, .call c⟩ : Place).In programs)
    (hr : m.resolve env program c = (r, m')) : m'.world.Placed programs := by
  intro site a hnone ha
  rcases (resolve_learns hr).1 site a ha with hold | ⟨rfl, hfound⟩
  · exact h site a hnone hold
  · exact ⟨m.ctx.lexical, c, hx, rfl, hfound.agrees⟩

theorem placed_resolveModuleCall {module : String} {r : Except EvalError Callable}
    (h : m.world.Placed programs) (hr : m.resolveModuleCall env program module c = (r, m')) :
    m'.world.Placed programs :=
  fun site a hnone ha => h site a hnone (resolveModuleCall_remembers hr hnone ha)

/-- More programs have more places. -/
theorem World.Placed.mono {programs' : List (Linked Block)} (h : w.Placed programs)
    (hsub : programs ⊆ programs') : w.Placed programs' := by
  intro site a hnone ha
  obtain ⟨scope, c, ⟨p, hp, hx⟩, hsite, hagrees⟩ := h site a hnone ha
  exact ⟨scope, c, ⟨p, hsub hp, hx⟩, hsite, hagrees⟩

/-- A call is resolved to what it means if what it remembers agrees with where it stands. -/
theorem Machine.resolve_eq_of_agrees (hi : m.world.Indexed env.registry)
    (hagrees : ∀ a, m.world.calls.lookup (c.site program) = some a → c.Agrees m.ctx.lexical a) :
    (m.resolve env program c).1 = meaning env m.ctx c := by
  cases hl : m.world.calls.lookup (c.site program) with
  | none => exact resolve_of_forgotten (by simp [remembered?, hl])
  | some a =>
    cases a with
    | nested f =>
      cases hexists : env.exists? m.world.drawer f with
      | false => exact resolve_of_forgotten (by simp [remembered?, hl, hexists])
      | true => exact (resolve_nested_iff hl hexists).mpr (.inl (hagrees _ hl))
    | slot g i =>
      by_cases hg : g = env.registry.generation
      · subst hg
        refine (resolve_slot_iff hl (hi.slots _ i rfl hl)).mpr fun f hf => ?_
        rw [show m.ctx.findFunction? c.name c.arity = none from hagrees _ hl] at hf
        cases hf
      · exact resolve_of_forgotten (by simp [remembered?, hl, hg])

/-- A context from a pool of cleared contexts is in no block. -/
theorem World.obtain_lexical (h : w.pool.Cleared) (session : SessionId) :
    (w.obtain session).1.lexical = [] := by
  unfold World.obtain Pool.obtain
  cases hidle : w.pool.idle with
  | nil => rfl
  | cons c rest =>
    have hc : c.reset = c := h c (by rw [hidle]; exact List.mem_cons_self)
    have hlexical : c.lexical = [] := by rw [← hc]; rfl
    simp only [Context.rebind]
    split <;> exact hlexical

/-- The body of a function starts in no block. -/
theorem Machine.enterCall_lexical (h : m.world.pool.Cleared) {f : FnDef} {args : List Expr}
    {r : Except ArithError Unit} (he : m.enterCall f args = (r, m')) : m'.ctx.lexical = [] := by
  have hcontrol := (Context.control_eq_iff.mp (m.enterCall_control f args)).2.2.2.1
  rw [he] at hcontrol
  exact hcontrol.trans (World.obtain_lexical h m.ctx.session)

end Placed

/-! ## Runs in scope -/

namespace Eval

open Machine

/-- The block on offer, if there is one, stands where the offer is made. -/
def OfferStands (programs : List (Linked Block)) (c : Context) : Prop :=
  ∀ b, c.attached? = some b → Stand programs (b.node.places b.program c.lexical)

/-- What the job runs stands in the programs, and in the scope that the context has. -/
def Job.Stands (programs : List (Linked Block)) (c : Context) : Job → Prop
  | .block b | .whileLoop _ b | .forLoop _ _ _ b _ | .times _ b | .forEach _ _ b =>
    Stand programs (b.node.places b.program c.lexical)
  | .stmts program l => Stand programs (Stmt.placesAll program c.lexical l)
  | .stmt program s => Stand programs (s.places program c.lexical) ∧ OfferStands programs c
  | .invoke callable args => callable.Suits programs args ∧ OfferStands programs c
  | .script f _ => Stand programs (f.node.places f.program)
  | .action _ a =>
    (∃ claimed, a.Direct claimed ∧
      ∀ b, claimed b → Stand programs (b.node.places b.program c.lexical)) ∧ OfferStands programs c

/-- A run of a part of the programs with callables that suit them, on a context whose functions are
    the scope of that part, and on a machine on which calls remember nothing wrong. -/
structure Aligned (programs : List (Linked Block)) (env : Env) (j : Job) (m : Machine) : Prop where
  numbered : Numbered programs
  suits : env.registry.Suits programs
  stands : j.Stands programs m.ctx
  scope : ScopeStands programs m.ctx.lexical
  cleared : m.world.pool.Cleared
  indexed : m.world.Indexed env.registry
  placed : m.world.Placed programs

variable {programs : List (Linked Block)} {env env' : Env} {j j' : Job} {m m' : Machine}

theorem offerStands_of_attached {c c' : Context} (h : OfferStands programs c)
    (ha : ∀ b, c'.attached? = some b → c.attached? = some b) (hl : c'.lexical = c.lexical) :
    OfferStands programs c' := by
  intro b hb
  rw [hl]
  exact h b (ha b hb)

theorem offerStands_of_eq {c c' : Context} (h : OfferStands programs c)
    (ho : c'.offers = c.offers) (hl : c'.lexical = c.lexical) : OfferStands programs c' := by
  refine offerStands_of_attached h (fun b hb => ?_) hl
  rwa [Context.attached?, ho] at hb

theorem offerStands_offering {program : ProgramId} {rest : List Stmt}
    (h : Stand programs (Stmt.placesAll program m.ctx.lexical rest)) :
    OfferStands programs (offering program rest m).ctx := by
  intro b hb
  rw [show (offering program rest m).ctx.lexical = m.ctx.lexical from
    (Context.framed_offer m.ctx _).lexical]
  rw [show (offering program rest m).ctx = m.ctx.offer (following program rest) from rfl,
    Context.offer, Context.attached?] at hb
  cases ho : m.ctx.offers with
  | nil => rw [ho] at hb; simp [ho] at hb
  | cons top outer => rw [ho] at hb; exact h.following hb

/-- A program as a whole stands in no block. -/
theorem stands_whole {p : Linked Block} {c : Context} (hp : p ∈ programs) (hc : c.lexical = []) :
    (Job.block p).Stands programs c := by
  rw [Job.Stands, hc]
  exact stand_program hp

namespace Aligned

/-- A call is resolved to what it means, whatever it remembers. -/
theorem resolve_eq {program : ProgramId} {c : Call}
    (h : Aligned programs env (.stmt program (.call c)) m) :
    (m.resolve env program c).1 = meaning env m.ctx c := by
  refine resolve_eq_of_agrees h.indexed fun a ha => ?_
  obtain ⟨scope, c', hx, hsite, hagrees⟩ := h.placed _ a rfl ha
  obtain ⟨rfl, rfl⟩ := h.numbered.call_unique hx h.stands.1.here hsite
  exact hagrees

/-- A call is resolved to a function of its scope, or to a callable of the registry. -/
theorem resolved_cases {program : ProgramId} {c : Call} {callable : Callable}
    (h : Aligned programs env (.stmt program (.call c)) m)
    (hr : m.resolve env program c = (.ok callable, m')) :
    (∃ f, m.ctx.findFunction? c.name c.arity = some f ∧ callable = .script f) ∨
      callable ∈ env.registry.callables := by
  have hmeans := h.resolve_eq
  rw [hr] at hmeans
  exact meaning_cases hmeans.symm

/-- A call of a function of a module is resolved to a callable of the registry. -/
theorem resolved_mem {program : ProgramId} {module : String} {c : Call} {callable : Callable}
    (h : Aligned programs env j m)
    (hr : m.resolveModuleCall env program module c = (.ok callable, m')) :
    callable ∈ env.registry.callables := by
  have hmeans := resolveModuleCall_eq_meaning h.indexed program module c
  rw [hr] at hmeans
  exact moduleMeaning_mem hmeans.symm

/-- The parts of a job stand where they run. -/
theorem stands_part (h : Aligned programs env j m) (he : Enters env j m env' j' m') :
    ScopeStands programs m'.ctx.lexical ∧ j'.Stands programs m'.ctx := by
  have hscope := h.scope
  have hstands := h.stands
  cases he with
  | @block b =>
    obtain ⟨hstmts, hfunctions⟩ := stand_block.mp hstands
    have hlexical : (m.enterBlock b).ctx.lexical =
        Scope.push m.ctx.lexical b.program b.node.functions := enterBlock_lexical m b
    rw [Job.Stands, hlexical]
    exact ⟨hscope.push hfunctions, hstmts⟩
  | first =>
    obtain ⟨hfirst, hrest⟩ := stand_cons.mp hstands
    have hoffer := offerStands_offering hrest
    unfold Job.Stands
    rw [show (offering _ _ m).ctx.lexical = m.ctx.lexical from
      (Context.framed_offer m.ctx _).lexical]
    exact ⟨hscope, hfirst, hoffer⟩
  | rest _ he =>
    have hlexical := he.restores.1.lexical.trans (Context.framed_offer m.ctx _).lexical
    rw [Job.Stands, hlexical]
    exact ⟨hscope, (stand_cons.mp hstands).2.remaining m'⟩
  | stmtBlock | stmtWhile | stmtFor => exact ⟨hscope, hstands.1.inner⟩
  | ifTrue => exact ⟨hscope, hstands.1.branches.1⟩
  | ifFalse => exact ⟨hscope, hstands.1.branches.2⟩
  | call hr =>
    rw [resolve_ctx hr]
    refine ⟨hscope, ?_, hstands.2⟩
    rcases h.resolved_cases hr with ⟨f, hf, rfl⟩ | hmem
    · exact hscope.find hf
    · exact h.suits _ hmem _ ⟨_, hstands.1.here, rfl⟩
  | moduleCall hr =>
    have hsuits := h.suits _ (h.resolved_mem hr) _ ⟨_, hstands.1.here, rfl⟩
    rw [resolveModuleCall_ctx hr]
    exact ⟨hscope, hsuits, hstands.2⟩
  | whileBody | forRange | forArray | timesBody => exact ⟨hscope, hstands⟩
  | whileNext _ _ he | timesNext _ he =>
    unfold Job.Stands
    rw [he.restores.1.lexical]
    exact ⟨hscope, hstands⟩
  | @forEachBody v item =>
    unfold Job.Stands
    rw [(framed_write m v item).lexical]
    exact ⟨hscope, hstands⟩
  | forEachNext _ he =>
    unfold Job.Stands
    rw [he.restores.1.lexical, (framed_write m _ _).lexical]
    exact ⟨hscope, hstands⟩
  | invokeScript => exact ⟨hscope, hstands.1⟩
  | invokeNative => exact ⟨hscope, ⟨_, hstands.1, nofun⟩, hstands.2⟩
  | body _ he =>
    rw [Job.Stands, FnDef.places_eq] at hstands
    unfold Job.Stands
    rw [enterCall_lexical h.cleared he]
    exact ⟨List.forall_mem_nil _, hstands⟩
  | request ha =>
    obtain ⟨⟨claimed, hdirect, hclaimed⟩, hoffer⟩ := hstands
    obtain ⟨⟨claimed', hdirect', hclaimed'⟩, hattached⟩ := hdirect.answer ha
    have hlexical := (Action.framed_answer ha).lexical
    refine ⟨hlexical ▸ hscope, ⟨claimed', hdirect', fun b hb => ?_⟩,
      offerStands_of_attached hoffer hattached hlexical⟩
    rw [hlexical]
    exact (hclaimed' b hb).elim (hclaimed b) (hoffer b)
  | run =>
    obtain ⟨⟨claimed, hdirect, hclaimed⟩, -⟩ := hstands
    exact ⟨hscope, hclaimed _ hdirect.1⟩
  | afterRun he =>
    obtain ⟨⟨claimed, hdirect, hclaimed⟩, hoffer⟩ := hstands
    have hlexical := he.restores.1.lexical
    refine ⟨hlexical ▸ hscope, ⟨claimed, hdirect.2 _, ?_⟩,
      offerStands_of_eq hoffer (he.restores.2 rfl) hlexical⟩
    rw [hlexical]
    exact hclaimed
  | runApart | afterRunApart | spawn | afterSpawn | afterFailedSpawn =>
    obtain ⟨⟨claimed, hdirect, -⟩, -⟩ := hstands
    exact hdirect.elim

/-- A part of a run is in scope too, once it is known that its calls remember nothing wrong. -/
theorem part (h : Aligned programs env j m) (he : Enters env j m env' j' m')
    (hplaced : m'.world.Placed programs) : Aligned programs env' j' m' where
  numbered := h.numbered
  suits := he.registry ▸ h.suits
  stands := (h.stands_part he).2
  scope := (h.stands_part he).1
  cleared := he.upkeep (upkeep_cleared _) h.cleared
  indexed := by
    rw [he.registry]
    exact he.upkeep (upkeep_indexed fun _ => rfl) h.indexed
  placed := hplaced

/-- Runs are in scope as long as calls remember nothing wrong. -/
theorem carries (programs : List (Linked Block)) :
    Carries (Aligned programs) (World.Placed programs) where
  now h := h.placed
  part h he hplaced := h.part he hplaced
  quiet hw hcalls := hw.of_eq hcalls
  resolve h hr := placed_resolve h.placed h.stands.1.here hr
  resolveModuleCall h hr := placed_resolveModuleCall h.placed hr

theorem enters (h : Aligned programs env j m) (he : Enters env j m env' j' m') :
    Aligned programs env' j' m' := (carries programs).enters h he

/-- Every moment of a run is in scope. -/
theorem reaches (h : Aligned programs env j m) (hr : Reaches env j m env' j' m') :
    Aligned programs env' j' m' := (carries programs).reaches hr h

/-- A statement that runs stands in the programs in one scope only, and that is what its context has
    of functions. -/
theorem lexical_eq {program : ProgramId} {s : Stmt} (h : Aligned programs env (.stmt program s) m) :
    (⟨program, m.ctx.lexical, s⟩ : Place).In programs ∧
      ∀ scope, (⟨program, scope, s⟩ : Place).In programs → scope = m.ctx.lexical := by
  have hplace := h.stands.1.here
  refine ⟨hplace, fun scope hscope => ?_⟩
  exact congrArg Place.scope (h.numbered.unique hscope hplace rfl rfl)

end Aligned

end Eval

end TierScript
