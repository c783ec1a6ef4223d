import TierScript.Proofs.Program.Grammar

/-!
# The shape of programs

What holds of the tree of every program: between operands and between conditions there is one
operator fewer than there are operands or conditions, only variables are negated, and the
parameters that are copied back are given by their positions in ascending order
(`Spells.shaped`). A test for names can be added, so that the same notion describes the programs
that can be written with names of a certain kind.
-/

namespace TierScript

open Parse (Item outPositions)

/-! ## Shapes -/

section

variable (name : String → Bool)

mutual

/-- One operator fewer than operands, and every operand is in shape. -/
def Expr.shaped : Expr → Bool
  | ⟨terms, ops, _⟩ => terms.length == ops.length + 1 && Term.shapedAll terms

/-- Only variables are negated. -/
def Term.shaped : Term → Bool
  | ⟨kind, _, negate, _⟩ => Term.Kind.shaped negate kind

/-- The shape of an operand that is negated or not. -/
def Term.Kind.shaped (negate : Bool) : Term.Kind → Bool
  | .var v => name v.name
  | .group e => !negate && Expr.shaped e
  | .number _ | .str _ | .bool _ | .null => !negate

/-- Every operand is in shape. -/
def Term.shapedAll : List Term → Bool
  | [] => true
  | t :: ts => Term.shaped t && Term.shapedAll ts

end

/-- Both sides of a comparison are in shape. -/
def Condition.shaped (c : Condition) : Bool :=
  c.left.shaped name && c.comparison.all fun r => r.2.shaped name

/-- One operator fewer than conditions, and every condition is in shape. -/
def Conditions.shaped (c : Conditions) : Bool :=
  c.items.length == c.ops.length + 1 && c.items.all (Condition.shaped name)

/-- The name and the arguments of a call are in shape. -/
def Call.shaped (c : Call) : Bool := name c.name && c.args.all (Expr.shaped name)

/-- The positions are ascending and below `count`. -/
def ascendingBelow (count : Nat) (positions : List Nat) : Bool :=
  decide (positions.Pairwise (· < ·)) && positions.all (· < count)

mutual

/-- Every statement and every function of the block is in shape. -/
def Block.shaped : Block → Bool
  | ⟨stmts, functions, _⟩ => Stmt.shapedAll stmts && FnDef.shapedAll functions

/-- The parameters that are copied back are ascending positions of parameters. -/
def FnDef.shaped : FnDef → Bool
  | ⟨fn, params, outs, body, _⟩ =>
    name fn && params.all name && ascendingBelow params.length outs && Block.shaped body

/-- All parts of the statement are in shape. -/
def Stmt.shaped : Stmt → Bool
  | .block body => Block.shaped body
  | .assign target value _ => name target.name && value.shaped name
  | .ifElse condition body none _ => condition.shaped name && Block.shaped body
  | .ifElse condition body (some otherwise) _ =>
    condition.shaped name && Block.shaped body && Block.shaped otherwise
  | .whileLoop condition body _ => condition.shaped name && Block.shaped body
  | .forLoop dest src body _ => dest.shaped name && src.shaped name && Block.shaped body
  | .breakLoop _ | .endCode _ => true
  | .call c => c.shaped name
  | .moduleCall module c => name module && c.shaped name

/-- Every statement is in shape. -/
def Stmt.shapedAll : List Stmt → Bool
  | [] => true
  | s :: ss => Stmt.shaped s && Stmt.shapedAll ss

/-- Every function is in shape. -/
def FnDef.shapedAll : List FnDef → Bool
  | [] => true
  | f :: fs => FnDef.shaped f && FnDef.shapedAll fs

end

theorem Term.shapedAll_eq (ts : List Term) : shapedAll name ts = ts.all (shaped name) := by
  induction ts with
  | nil => rw [shapedAll, List.all_nil]
  | cons t ts ih => rw [shapedAll, List.all_cons, ih]

theorem Stmt.shapedAll_eq (ss : List Stmt) : shapedAll name ss = ss.all (shaped name) := by
  induction ss with
  | nil => rw [shapedAll, List.all_nil]
  | cons s ss ih => rw [shapedAll, List.all_cons, ih]

theorem FnDef.shapedAll_eq (fs : List FnDef) : shapedAll name fs = fs.all (shaped name) := by
  induction fs with
  | nil => rw [shapedAll, List.all_nil]
  | cons f fs ih => rw [shapedAll, List.all_cons, ih]

/-- The shape of an item of a block. -/
def Parse.Item.shaped : Item → Bool
  | .stmt s => s.shaped name
  | .fn f => f.shaped name

theorem Block.shaped_ofItems {l : List Item} {span : Span}
    (h : ∀ x ∈ l, x.shaped name = true) : (Block.ofItems l span).shaped name = true := by
  simp only [Block.ofItems, shaped, Stmt.shapedAll_eq, FnDef.shapedAll_eq, Bool.and_eq_true,
    List.all_eq_true, List.mem_filterMap]
  constructor
  · rintro s ⟨x, hx, heq⟩
    cases x with
    | stmt s' => cases heq; exact h _ hx
    | fn f => cases heq
  · rintro f ⟨x, hx, heq⟩
    cases x with
    | stmt s => cases heq
    | fn f' => cases heq; exact h _ hx

end

/-! ## What is spelled is in shape -/

theorem ascendingBelow_outPositions (l : List (Bool × String)) :
    ascendingBelow l.length (outPositions 0 l) = true := by
  have hpositions (i : Nat) (l : List (Bool × String)) :
      (outPositions i l).Pairwise (· < ·) ∧ ∀ k ∈ outPositions i l, i ≤ k ∧ k < i + l.length := by
    induction l generalizing i with
    | nil => exact ⟨.nil, nofun⟩
    | cons x l ih =>
      obtain ⟨hsorted, hbound⟩ := ih (i + 1)
      unfold outPositions
      split
      · refine ⟨List.pairwise_cons.mpr ⟨fun k hk => (hbound k hk).1, hsorted⟩, ?_⟩
        intro k hk
        rcases List.mem_cons.mp hk with rfl | hk
        · simp
        · have := hbound k hk
          simp only [List.length_cons]
          omega
      · refine ⟨hsorted, fun k hk => ?_⟩
        have := hbound k hk
        simp only [List.length_cons]
        omega
  obtain ⟨hsorted, hbound⟩ := hpositions 0 l
  simp only [ascendingBelow, Bool.and_eq_true, decide_eq_true_eq, List.all_eq_true]
  exact ⟨hsorted, fun k hk => by simpa using (hbound k hk).2⟩

/-- Any name will do. -/
def anyName (_ : String) : Bool := true

/-- The shape of a phrase, whatever its names. -/
def Phrase.Shaped : Phrase → Prop
  | .operand kind negate => kind.shaped anyName negate = true
  | .term t => t.shaped anyName = true
  | .operands l => ∀ x ∈ l, x.2.shaped anyName = true
  | .expr e => e.shaped anyName = true
  | .cond c => c.shaped anyName = true
  | .moreConds l => ∀ x ∈ l, x.2.shaped anyName = true
  | .conds c => c.shaped anyName = true
  | .moreArguments l | .arguments l => ∀ e ∈ l, e.shaped anyName = true
  | .body b => b.shaped anyName = true
  | .ifStmt s _ => s.shaped anyName = true
  | .otherwise b => ∀ x ∈ b, x.shaped anyName = true
  | .item x _ => x.shaped anyName = true
  | .items l => ∀ x ∈ l, x.shaped anyName = true
  | .tierVar _ | .var _ | .moreParameters _ | .parameters _ => True

theorem Spells.shaped {ts : List Token} {p : Phrase} (h : Spells ts p) : p.Shaped := by
  induction h with
  | tierName | tierDotName | tierVar | name | lastParameter | nextParameter | lastOut | nextOut
  | noParameters | someParameters => trivial
  | number | negativeNumber | str | trueWord | falseWord | nullWord | var | negativeVar =>
    simp [Phrase.Shaped, Term.Kind.shaped, anyName]
  | group _ _ _ ih => simpa [Phrase.Shaped, Term.Kind.shaped] using ih
  | term _ ih | invertedTerm _ _ ih => simpa [Phrase.Shaped, Term.shaped] using ih
  | noOperands | noConds | noArguments | noElse | noItems => exact nofun
  | operand _ _ _ iht ihr | nextCond _ _ _ iht ihr =>
    exact List.forall_mem_cons.mpr ⟨iht, ihr⟩
  | @invertedOperand _ _ _ x _ _ _ _ _ _ _ iht ihr =>
    obtain ⟨kind, invert, negate, span⟩ := x
    exact List.forall_mem_cons.mpr ⟨by simpa [Phrase.Shaped, Term.shaped] using iht, ihr⟩
  | expr _ _ iht ihr =>
    simp only [Phrase.Shaped, Expr.shaped, Term.shapedAll_eq, List.length_cons, List.length_map,
      beq_self_eq_true, List.all_cons, Bool.true_and, Bool.and_eq_true, List.all_map,
      List.all_eq_true]
    exact ⟨iht, ihr⟩
  | test _ ih => simpa [Phrase.Shaped, Condition.shaped] using ih
  | comparison _ _ _ ihl ihr =>
    simpa [Phrase.Shaped, Condition.shaped] using ⟨ihl, ihr⟩
  | conds _ _ ihc ihr =>
    simp only [Phrase.Shaped, Conditions.shaped, List.length_cons, List.length_map,
      beq_self_eq_true, List.all_cons, Bool.true_and, Bool.and_eq_true, List.all_map,
      List.all_eq_true]
    exact ⟨ihc, ihr⟩
  | lastArgument _ _ ih =>
    exact List.forall_mem_cons.mpr ⟨ih, nofun⟩
  | nextArgument _ _ _ ihe ihr =>
    exact List.forall_mem_cons.mpr ⟨ihe, ihr⟩
  | someArguments _ ih | block _ ih | ifItem _ ih | semicolon _ _ ih => exact ih
  | assign _ _ _ _ ih => simpa [Phrase.Shaped, Item.shaped, Stmt.shaped, anyName] using ih
  | call _ _ _ ih | moduleCall _ _ _ _ _ ih | fnModuleCall _ _ _ _ _ _ ih =>
    simpa [Phrase.Shaped, Item.shaped, Stmt.shaped, Call.shaped, anyName] using ih
  | breakLoop | endCode => rfl
  | whileLoop _ _ _ _ _ ihc ihb =>
    simpa [Phrase.Shaped, Item.shaped, Stmt.shaped] using ⟨ihc, ihb⟩
  | forLoop _ _ _ _ _ _ _ ihd ihs ihb =>
    simpa [Phrase.Shaped, Item.shaped, Stmt.shaped, and_assoc] using ⟨ihd, ihs, ihb⟩
  | @ifStmt _ _ _ _ _ _ _ _ alternative _ _ _ _ _ _ ihc ihb ihr =>
    cases alternative with
    | none => simpa [Phrase.Shaped, Stmt.shaped] using ⟨ihc, ihb⟩
    | some b => simpa [Phrase.Shaped, Stmt.shaped, and_assoc] using ⟨ihc, ihb, ihr b rfl⟩
  | elseIf _ _ ih =>
    rintro b ⟨⟩
    simpa [Phrase.Shaped, Block.shaped, Stmt.shapedAll, FnDef.shapedAll] using ih
  | elseBody _ _ ih =>
    rintro b ⟨⟩
    exact ih
  | body _ _ _ ih => exact Block.shaped_ofItems _ ih
  | @fnEnd _ _ _ _ params _ _ _ _ _ _ _ _ _ _ ihi
  | @fnEndFn _ _ _ _ params _ _ _ _ _ _ _ _ _ _ _ _ ihi =>
    have houts := ascendingBelow_outPositions params
    simp only [Phrase.Shaped, Item.shaped, FnDef.shaped, Bool.and_eq_true, List.length_map, houts,
      Block.shaped_ofItems _ ihi, anyName, List.all_eq_true]
    simp
  | nextItem _ _ _ ihx ihr =>
    exact List.forall_mem_cons.mpr ⟨ihx, ihr⟩

end TierScript
