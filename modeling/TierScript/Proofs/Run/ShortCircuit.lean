import TierScript.Proofs.Program.Extents
import TierScript.Run.Expression

/-!
# Conditions group to the right

`Conditions.eval` goes along the conditions once and leaves off at the first operator that decides.
This is the value of `c₁ op₁ (c₂ op₂ (… cₙ))` with the usual short-circuit `&&` and `||`.

* `Reading`: conditions grouped to the right.
* `Conditions.test`: the same loop with any way to look at a condition, so that looking can leave a
  trace.
* `Conditions.StopsAt`: the condition that gives the result.
* `conditions_group_right`: the loop is the reading, whatever looking at a condition does. It looks
  at the conditions up to the one that gives the result, once each and in order.
-/

namespace TierScript

variable {m : Type → Type} [Monad m]

/-! ## Short circuits -/

namespace BoolOp

/-- The usual `&&` and `||`: the second side is run only if the first does not tell the result. -/
def shortCircuit (op : BoolOp) (first : Bool) (second : m Bool) : m Bool :=
  match op with
  | .and => if first then second else pure false
  | .or => if first then pure true else second

/-- Whether the first side tells the result. -/
def decides : BoolOp → Bool → Bool
  | .and, first => !first
  | .or, first => first

theorem shortCircuit_eq (op : BoolOp) (first : Bool) (second : m Bool) :
    op.shortCircuit first second = if op.decides first then pure first else second := by
  cases op <;> cases first <;> rfl

end BoolOp

/-- Conditions grouped to the right: a single one, or one before an operator and all others. -/
inductive Reading where
  | last (c : Condition)
  | join (c : Condition) (op : BoolOp) (rest : Reading)

namespace Reading

/-- The conditions, in written order. -/
def items : Reading → List Condition
  | .last c => [c]
  | .join c _ rest => c :: rest.items

/-- The operators, in written order. -/
def ops : Reading → List BoolOp
  | .last _ => []
  | .join _ op rest => op :: rest.ops

/-- The conditions as they are written, without the grouping. -/
def flat (r : Reading) (span : Span) : Conditions := ⟨r.items, r.ops, span⟩

/-- The result, when conditions are looked at with `look`. -/
def run (look : Condition → m Bool) : Reading → m Bool
  | .last c => look c
  | .join c op rest => do op.shortCircuit (← look c) (rest.run look)

theorem exists_cons_items (r : Reading) : ∃ c rest, r.items = c :: rest := by
  cases r with
  | last c => exact ⟨c, [], rfl⟩
  | join c op rest => exact ⟨c, rest.items, rfl⟩

theorem exists_flat {ops : List BoolOp} {items : List Condition}
    (h : items.length = ops.length + 1) (span : Span) :
    ∃ r : Reading, r.flat span = ⟨items, ops, span⟩ := by
  induction ops generalizing items with
  | nil =>
    obtain ⟨c, rfl⟩ := List.length_eq_one_iff.mp h
    exact ⟨.last c, rfl⟩
  | cons op ops ih =>
    cases items with
    | nil => cases h
    | cons c items =>
      obtain ⟨r, hr⟩ := ih (Nat.succ.inj h)
      cases hr
      exact ⟨.join c op r, rfl⟩

end Reading

/-! ## The loop -/

/-- The result of the conditions that follow one with the result `holds`. -/
def testChain (look : Condition → m Bool) (holds : Bool) : List (BoolOp × Condition) → m Bool
  | [] => pure holds
  | (op, c) :: rest =>
    match op, holds with
    | .and, false => pure false
    | .or, true => pure true
    | _, _ => do testChain look (← look c) rest

/-- Whether a list of conditions holds. No condition at all does not hold. -/
def Conditions.test (look : Condition → m Bool) (c : Conditions) : m Bool :=
  match c.items with
  | [] => pure false
  | first :: rest => do testChain look (← look first) (c.ops.zip rest)

theorem testChain_cons (look : Condition → m Bool) (holds : Bool) (op : BoolOp) (c : Condition)
    (rest : List (BoolOp × Condition)) :
    testChain look holds ((op, c) :: rest) =
      op.shortCircuit holds (do testChain look (← look c) rest) := by
  cases op <;> cases holds <;> rfl

theorem evalChain_eq_testChain (env : Var → Value) (holds : Bool) (l : List (BoolOp × Condition)) :
    evalChain env holds l = testChain (Condition.eval env) holds l := by
  induction l generalizing holds with
  | nil => rfl
  | cons x l ih =>
    obtain ⟨op, c⟩ := x
    have hnext : (do evalChain env (← c.eval env) l) =
        (do testChain (Condition.eval env) (← c.eval env) l) := by
      simp only [ih]
    rw [testChain_cons, ← hnext]
    cases op <;> cases holds <;> simp only [evalChain] <;> cases c.eval env <;> rfl

/-- The conditions are evaluated by the loop. -/
theorem Conditions.eval_eq_test (env : Var → Value) (c : Conditions) :
    c.eval env = c.test (Condition.eval env) := by
  unfold eval test
  cases c.items with
  | nil => rfl
  | cons first rest =>
    dsimp only
    cases first.eval env with
    | error e => rfl
    | ok holds => exact evalChain_eq_testChain env holds _

namespace Reading

/-- After its first condition the loop goes on with the rest of the reading. -/
theorem test_flat [LawfulMonad m] (look : Condition → m Bool) (r : Reading) (span : Span) :
    (r.flat span).test look = r.run look := by
  induction r with
  | last c => exact bind_pure (look c)
  | join c op rest ih =>
    obtain ⟨d, ds, hds⟩ := rest.exists_cons_items
    have hrest : (do testChain look (← look d) (rest.ops.zip ds)) = rest.run look := by
      rw [← ih, Conditions.test, flat, hds]
    show (do testChain look (← look c) ((op :: rest.ops).zip rest.items)) = _
    rw [hds, List.zip_cons_cons]
    simp only [testChain_cons, hrest]
    rfl

end Reading

/-! ## Where the loop stops -/

/-- The condition at the index `k` gives the result of the conditions: no condition before it tells
    the result, and it is the last one, has no value, or tells the result. -/
structure Conditions.StopsAt (c : Conditions) (env : Var → Value) (k : Nat) : Prop where
  before : ∀ i < k, ∃ x op b, c.items[i]? = some x ∧ c.ops[i]? = some op ∧
    x.eval env = .ok b ∧ op.decides b = false
  result : ∃ x, c.items[k]? = some x ∧ c.eval env = x.eval env ∧
    (k + 1 = c.items.length ∨ (∃ e, x.eval env = .error e) ∨
      ∃ op b, c.ops[k]? = some op ∧ x.eval env = .ok b ∧ op.decides b = true)

/-- Evaluates a condition and makes a note of it, with or without a result. -/
def Condition.watch (env : Var → Value) (c : Condition) :
    ExceptT ArithError (StateM (List Condition)) Bool :=
  .mk fun seen => (c.eval env, seen ++ [c])

theorem Condition.watch_bind (env : Var → Value) (c : Condition) (seen : List Condition)
    (next : Bool → ExceptT ArithError (StateM (List Condition)) Bool) :
    (c.watch env >>= next).run.run seen =
      match c.eval env with
      | .ok b => (next b).run.run (seen ++ [c])
      | .error e => (.error e, seen ++ [c]) := by
  have hrun : (c.watch env >>= next).run.run seen =
      StateT.run (ExceptT.bindCont next (c.eval env)) (seen ++ [c]) := rfl
  rw [hrun]
  cases c.eval env <;> rfl

namespace Reading

variable {env : Var → Value} {c : Condition} {op : BoolOp} {rest : Reading} {span : Span} {b : Bool}

theorem eval_flat (env : Var → Value) (r : Reading) (span : Span) :
    (r.flat span).eval env = r.run (Condition.eval env) := by
  rw [Conditions.eval_eq_test, test_flat]

theorem run_join (hc : c.eval env = .ok b) :
    (join c op rest).run (Condition.eval env) =
      if op.decides b then .ok b else rest.run (Condition.eval env) := by
  rw [run, hc]
  exact op.shortCircuit_eq b _

/-- The first condition has no value. -/
theorem stopsAt_error {e : ArithError} (hc : c.eval env = .error e) :
    ((join c op rest).flat span).StopsAt env 0 := by
  refine ⟨nofun, c, rfl, ?_, .inr (.inl ⟨e, hc⟩)⟩
  rw [eval_flat, run, hc]
  rfl

/-- The first condition tells the result. -/
theorem stopsAt_decided (hc : c.eval env = .ok b) (hop : op.decides b = true) :
    ((join c op rest).flat span).StopsAt env 0 := by
  refine ⟨nofun, c, rfl, ?_, .inr (.inr ⟨op, b, rfl, hc, hop⟩)⟩
  rw [eval_flat, run_join hc, if_pos hop, hc]

/-- The first condition does not tell the result, and those after it stop somewhere. -/
theorem stopsAt_later {k : Nat} (hc : c.eval env = .ok b) (hop : op.decides b = false)
    (h : (rest.flat span).StopsAt env k) :
    ((join c op rest).flat span).StopsAt env (k + 1) := by
  have heval : ((join c op rest).flat span).eval env = (rest.flat span).eval env := by
    rw [eval_flat, eval_flat, run_join hc, hop, if_neg Bool.false_ne_true]
  constructor
  · intro i hi
    cases i with
    | zero => exact ⟨c, op, b, rfl, rfl, hc, hop⟩
    | succ i => exact h.before i (Nat.lt_of_succ_lt_succ hi)
  · obtain ⟨x, hx, hresult, hend⟩ := h.result
    exact ⟨x, hx, heval.trans hresult, hend.imp_left (congrArg (· + 1))⟩

/-- The notes are those of the conditions up to the one that gives the result. -/
theorem run_watch (r : Reading) (span : Span) (env : Var → Value) (seen : List Condition) :
    ∃ k, (r.flat span).StopsAt env k ∧
      (r.run (Condition.watch env)).run.run seen =
        (r.run (Condition.eval env), seen ++ r.items.take (k + 1)) := by
  induction r generalizing seen with
  | last c => exact ⟨0, ⟨nofun, c, rfl, eval_flat env (.last c) span, .inl rfl⟩, rfl⟩
  | join c op rest ih =>
    cases hc : c.eval env with
    | error e =>
      refine ⟨0, stopsAt_error hc, ?_⟩
      rw [run, Condition.watch_bind, run, hc]
      rfl
    | ok b =>
      have hnotes : ((join c op rest).run (Condition.watch env)).run.run seen =
          (op.shortCircuit b (rest.run (Condition.watch env))).run.run (seen ++ [c]) := by
        rw [run, Condition.watch_bind, hc]
      rw [hnotes, BoolOp.shortCircuit_eq, run_join hc]
      cases hop : op.decides b with
      | true => exact ⟨0, stopsAt_decided hc hop, rfl⟩
      | false =>
        obtain ⟨k, hk, hrest⟩ := ih (seen ++ [c])
        refine ⟨k + 1, stopsAt_later hc hop hk, hrest.trans ?_⟩
        rw [List.append_assoc]
        rfl

end Reading

/-! ## Conditions of programs -/

section

variable {name : String → Bool} {n d : Node}

/-- The shape of a node. -/
def Node.shaped (name : String → Bool) : Node → Bool
  | .term t => t.shaped name
  | .expr e => e.shaped name
  | .condition c => c.shaped name
  | .conditions c => c.shaped name
  | .stmt s => s.shaped name
  | .block b => b.shaped name
  | .function f => f.shaped name

theorem Term.Kind.shaped_parts {kind : Term.Kind} {negate : Bool}
    (h : kind.shaped name negate = true) : ∀ d ∈ kind.parts, d.shaped name = true := by
  cases kind with
  | group e =>
    rw [shaped, Bool.and_eq_true] at h
    exact List.forall_mem_singleton.mpr h.2
  | number _ | str _ | bool _ | null | var _ => exact List.forall_mem_nil _

theorem Condition.shaped_parts {c : Condition} (h : c.shaped name = true) :
    ∀ d ∈ c.parts, d.shaped name = true := by
  rw [shaped, Bool.and_eq_true] at h
  refine List.forall_mem_cons.mpr ⟨h.1, ?_⟩
  cases hc : c.comparison with
  | none => exact List.forall_mem_nil _
  | some x =>
    rw [hc] at h
    exact List.forall_mem_singleton.mpr h.2

theorem Call.shaped_args {c : Call} (h : c.shaped name = true) :
    ∀ d ∈ c.args.map Node.expr, d.shaped name = true := by
  rw [shaped, Bool.and_eq_true, List.all_eq_true] at h
  exact List.forall_mem_map.mpr h.2

theorem Stmt.shaped_parts {s : Stmt} (h : s.shaped name = true) :
    ∀ d ∈ s.parts, d.shaped name = true := by
  cases s with
  | block b => exact List.forall_mem_singleton.mpr (by rwa [shaped] at h)
  | assign target value span =>
    rw [shaped, Bool.and_eq_true] at h
    exact List.forall_mem_singleton.mpr h.2
  | ifElse condition body otherwise span =>
    cases otherwise <;> simp_all [parts, shaped, Node.shaped]
  | whileLoop condition body span => simp_all [parts, shaped, Node.shaped]
  | forLoop dest src body span => simp_all [parts, shaped, Node.shaped]
  | breakLoop span | endCode span => exact List.forall_mem_nil _
  | call c => exact Call.shaped_args (by rwa [shaped] at h)
  | moduleCall module c =>
    rw [shaped, Bool.and_eq_true] at h
    exact Call.shaped_args h.2

namespace Node

theorem shaped_of_mem_children (h : n.shaped name = true) (hd : d ∈ n.children) :
    d.shaped name = true := by
  obtain ⟨row, hrow, hd⟩ := List.mem_flatten.mp hd
  cases n with
  | term t =>
    cases List.mem_singleton.mp hrow
    obtain ⟨kind, invert, negate, span⟩ := t
    rw [shaped, Term.shaped] at h
    exact Term.Kind.shaped_parts h d hd
  | expr e =>
    cases List.mem_singleton.mp hrow
    obtain ⟨terms, ops, span⟩ := e
    obtain ⟨t, ht, rfl⟩ := List.mem_map.mp hd
    rw [shaped, Expr.shaped, Bool.and_eq_true, Term.shapedAll_eq, List.all_eq_true] at h
    exact h.2 t ht
  | condition c =>
    cases List.mem_singleton.mp hrow
    exact Condition.shaped_parts h d hd
  | conditions c =>
    cases List.mem_singleton.mp hrow
    obtain ⟨x, hx, rfl⟩ := List.mem_map.mp hd
    rw [shaped, Conditions.shaped, Bool.and_eq_true, List.all_eq_true] at h
    exact h.2 x hx
  | stmt s =>
    cases List.mem_singleton.mp hrow
    exact Stmt.shaped_parts h d hd
  | block b =>
    obtain ⟨stmts, functions, span⟩ := b
    rw [shaped, Block.shaped, Bool.and_eq_true, Stmt.shapedAll_eq, FnDef.shapedAll_eq,
      List.all_eq_true, List.all_eq_true] at h
    rcases List.mem_pair.mp hrow with rfl | rfl
    · obtain ⟨s, hs, rfl⟩ := List.mem_map.mp hd
      exact h.1 s hs
    · obtain ⟨f, hf, rfl⟩ := List.mem_map.mp hd
      exact h.2 f hf
  | function f =>
    cases List.mem_singleton.mp hrow
    cases List.mem_singleton.mp hd
    obtain ⟨fn, params, outs, body, span⟩ := f
    rw [shaped, FnDef.shaped, Bool.and_eq_true] at h
    exact h.2

theorem shaped_of_within (h : n.shaped name = true) (hd : n.Within d) : d.shaped name = true := by
  induction hd with
  | single hd => exact shaped_of_mem_children h hd
  | tail _ hd ih => exact shaped_of_mem_children ih hd

end Node

end

theorem shaped_of_parse {source : Source} {b : Block} (h : parse source = .ok b) :
    b.shaped anyName = true := by
  obtain ⟨ts, hts⟩ := tokenize_of_parse h
  obtain ⟨us, e, l, -, -, hspell, rfl⟩ :=
    (parse_eq_ok_of_lexes source (Reader.lexes_of_tokenize hts)).mp h
  exact Block.shaped_ofItems _ hspell.shaped

/-- The conditions of a statement in a parsed program are those of a reading, and are evaluated as
    this reading with short-circuit operators says. This is so whatever looking at a condition does:
    the loop looks at the same conditions as the reading, up to the one that gives the result, once
    each and in order, and not at those after it. -/
theorem conditions_group_right {source : Source} {b : Block} (h : parse source = .ok b)
    {c : Conditions} (hc : (Node.block b).Within (.conditions c)) :
    ∃ r : Reading, r.flat c.span = c ∧
      (∀ (m : Type → Type) [Monad m] [LawfulMonad m] (look : Condition → m Bool),
        c.test look = r.run look) ∧
      ∀ env : Var → Value, c.eval env = c.test (Condition.eval env) ∧
        c.eval env = r.run (Condition.eval env) ∧
        ∃ k, c.StopsAt env k ∧
          (c.test (Condition.watch env)).run.run [] = (c.eval env, c.items.take (k + 1)) := by
  have hprogram : (Node.block b).shaped anyName = true := shaped_of_parse h
  have hshaped : c.shaped anyName = true := Node.shaped_of_within hprogram hc
  have hlength : c.items.length = c.ops.length + 1 := by
    rw [Conditions.shaped, Bool.and_eq_true, beq_iff_eq] at hshaped
    exact hshaped.1
  obtain ⟨r, hr⟩ := Reading.exists_flat hlength c.span
  have hflat : r.flat c.span = c := hr
  refine ⟨r, hflat, ?_, ?_⟩
  · intro m _ _ look
    rw [← r.test_flat look c.span, hflat]
  · intro env
    obtain ⟨k, hk, hwatch⟩ := r.run_watch c.span env []
    rw [← r.test_flat _ c.span, hflat, ← Reading.eval_flat env r c.span, hflat] at hwatch
    refine ⟨c.eval_eq_test env, ?_, k, hflat ▸ hk, hwatch.trans ?_⟩
    · rw [← Reading.eval_flat env r c.span, hflat]
    · rw [← hflat]
      rfl

/-- A condition with a division by zero, which is skipped. -/
def skippedDivision : Source := .ofString "p" "if (0 && 1 / 0 || 1) { }"

/-- The conditions of a block that is a single `if`. -/
def Block.ifConditions? (b : Block) : Option Conditions :=
  match b.stmts with
  | [.ifElse c _ _ _] => some c
  | _ => none

theorem Block.within_of_ifConditions? {b : Block} {c : Conditions} (h : b.ifConditions? = some c) :
    (Node.block b).Within (.conditions c) := by
  unfold ifConditions? at h
  split at h
  · next body otherwise span hstmts =>
    cases h
    refine .tail (b := .stmt (.ifElse c body otherwise span)) (.single ?_) ?_
    · simp [Node.children, Node.rows, hstmts]
    · simp [Node.children, Node.rows, Stmt.parts]
  · cases h

/-- `0 && (1 / 0 || 1)` does not hold, and only the `0` is looked at. From left to right it would
    hold. -/
theorem conditions_group_right_skipped :
    ∃ (b : Block) (c : Conditions) (r : Reading), parse skippedDivision = .ok b ∧
      (Node.block b).Within (.conditions c) ∧ r.flat c.span = c ∧ c.ops = [.and, .or] ∧
      r.run (Condition.eval fun _ => .null) = .ok false ∧
      ∃ first, (c.test (Condition.watch fun _ => .null)).run.run [] = (.ok false, [first]) := by
  have hparse : (parse skippedDivision).toOption.any (fun b => b.ifConditions?.any fun c =>
      c.ops = [.and, .or] && (c.eval fun _ => .null).toOption = some false &&
        ((c.test (Condition.watch fun _ => .null)).run.run []).2.length = 1) = true := by
    decide +kernel
  obtain ⟨b, hb, htest⟩ := exists_ok_of_any hparse
  obtain ⟨c, hc, htest⟩ := (Option.any_eq_true _ _).mp htest
  simp only [Bool.and_eq_true, decide_eq_true_eq] at htest
  obtain ⟨⟨hops, heval⟩, hcount⟩ := htest
  have hwithin := b.within_of_ifConditions? hc
  obtain ⟨r, hflat, -, heach⟩ := conditions_group_right hb hwithin
  obtain ⟨-, hrun, k, -, hwatch⟩ := heach fun _ => .null
  have hfalse : c.eval (fun _ => .null) = .ok false := by
    cases h : c.eval fun _ => .null with
    | error e => rw [h] at heval; cases heval
    | ok v => rw [h] at heval; cases heval; rfl
  rw [hwatch] at hcount
  obtain ⟨first, hfirst⟩ := List.length_eq_one_iff.mp hcount
  refine ⟨b, c, r, hb, hwithin, hflat, hops, hrun.symm.trans hfalse, first, ?_⟩
  rw [hwatch, hfalse]
  exact congrArg _ hfirst

end TierScript
