import TierScript.Run.Machine

/-!
# Scopes and variables of a program

What can be read off a program before it runs: the variables that it reads, and the functions that
the blocks around a statement have.

* `Expr.reads`, `Block.reads`: the variables that are read. The value of an expression depends on
  no others (`Expr.eval_congr`).
* `Scope`: the functions of the blocks around a statement, and how a name is found in them.
-/

namespace TierScript

/-! ## Variables -/

mutual

/-- The variables that an expression reads. -/
def Expr.reads : Expr → List Var
  | ⟨terms, _, _⟩ => Term.readsAll terms

/-- The variables that an operand reads. -/
def Term.reads : Term → List Var
  | ⟨kind, _, _, _⟩ => Term.Kind.reads kind

/-- The variables that an operand without its signs reads. -/
def Term.Kind.reads : Term.Kind → List Var
  | .var v => [v]
  | .group e => Expr.reads e
  | .number _ | .str _ | .bool _ | .null => []

/-- The variables that operands read. -/
def Term.readsAll : List Term → List Var
  | [] => []
  | t :: ts => Term.reads t ++ Term.readsAll ts

end

/-- The variables that a condition reads. -/
def Condition.reads (c : Condition) : List Var :=
  c.left.reads ++ c.comparison.toList.flatMap fun x => x.2.reads

/-- The variables that conditions read. -/
def Conditions.reads (c : Conditions) : List Var := c.items.flatMap Condition.reads

section Congruence

variable {f g : Var → Value}

mutual

theorem Expr.eval_congr : ∀ {e : Expr}, (∀ v ∈ e.reads, f v = g v) → e.eval f = e.eval g
  | ⟨terms, ops, span⟩, h => by
    rw [Expr.eval, Expr.eval, Term.evalAll_congr h]

theorem Term.eval_congr : ∀ {t : Term}, (∀ v ∈ t.reads, f v = g v) → t.eval f = t.eval g
  | ⟨kind, invert, negate, span⟩, h => by
    rw [Term.eval, Term.eval, Term.Kind.eval_congr h]

theorem Term.Kind.eval_congr : ∀ {k : Term.Kind}, (∀ v ∈ k.reads, f v = g v) → k.eval f = k.eval g
  | .var v, h => by
    rw [Term.Kind.eval, Term.Kind.eval, h v (by simp [Term.Kind.reads])]
  | .group e, h => by
    rw [Term.Kind.eval, Term.Kind.eval, Expr.eval_congr h]
  | .number _, _ | .str _, _ | .bool _, _ | .null, _ => by
    simp only [Term.Kind.eval]

theorem Term.evalAll_congr :
    ∀ {ts : List Term}, (∀ v ∈ Term.readsAll ts, f v = g v) → Term.evalAll f ts = Term.evalAll g ts
  | [], _ => by rw [Term.evalAll, Term.evalAll]
  | t :: ts, h => by
    rw [Term.readsAll, List.forall_mem_append] at h
    rw [Term.evalAll, Term.evalAll, Term.eval_congr h.1, Term.evalAll_congr h.2]

end

theorem Condition.eval_congr {c : Condition} (h : ∀ v ∈ c.reads, f v = g v) :
    c.eval f = c.eval g := by
  rw [Condition.reads, List.forall_mem_append] at h
  unfold Condition.eval
  rw [Expr.eval_congr h.1]
  cases hc : c.comparison with
  | none => rfl
  | some comparison =>
    have hright : comparison.2.eval f = comparison.2.eval g :=
      Expr.eval_congr fun v hv => h.2 v (by simpa [hc] using hv)
    simp only [hright]

theorem evalChain_congr {holds : Bool} {l : List (BoolOp × Condition)}
    (h : ∀ x ∈ l, ∀ v ∈ x.2.reads, f v = g v) : evalChain f holds l = evalChain g holds l := by
  induction l generalizing holds with
  | nil => rfl
  | cons x l ih =>
    have hfirst := Condition.eval_congr (h x List.mem_cons_self)
    have hrest (holds : Bool) : evalChain f holds l = evalChain g holds l :=
      ih fun y hy => h y (List.mem_cons_of_mem x hy)
    simp only [evalChain, hfirst, hrest]

theorem Conditions.eval_congr {c : Conditions} (h : ∀ v ∈ c.reads, f v = g v) :
    c.eval f = c.eval g := by
  have hitems : ∀ x ∈ c.items, ∀ v ∈ x.reads, f v = g v :=
    fun x hx v hv => h v (List.mem_flatMap.mpr ⟨x, hx, hv⟩)
  unfold Conditions.eval
  split
  · rfl
  · next first rest heq =>
    rw [heq] at hitems
    have hchain (holds : Bool) : evalChain f holds (c.ops.zip rest) =
        evalChain g holds (c.ops.zip rest) :=
      evalChain_congr fun x hx => hitems x.2 (List.mem_cons_of_mem _ (List.of_mem_zip hx).2)
    simp only [Condition.eval_congr (hitems first List.mem_cons_self), hchain]

end Congruence

mutual

/-- The variables that a block reads, the functions in it included. -/
def Block.reads : Block → List Var
  | ⟨stmts, functions, _⟩ => Stmt.readsAll stmts ++ FnDef.readsAll functions

/-- The variables that an optional block reads. -/
def Block.readsOption : Option Block → List Var
  | none => []
  | some b => Block.reads b

/-- The variables that the body of a function reads. -/
def FnDef.reads : FnDef → List Var
  | ⟨_, _, _, body, _⟩ => Block.reads body

/-- The variables that the bodies of functions read. -/
def FnDef.readsAll : List FnDef → List Var
  | [] => []
  | f :: fs => FnDef.reads f ++ FnDef.readsAll fs

/-- The variables that a statement reads. -/
def Stmt.reads : Stmt → List Var
  | .block body => Block.reads body
  | .assign _ value _ => value.reads
  | .ifElse condition body otherwise _ =>
    condition.reads ++ (Block.reads body ++ Block.readsOption otherwise)
  | .whileLoop condition body _ => condition.reads ++ Block.reads body
  | .forLoop dest src body _ => dest.reads ++ (src.reads ++ Block.reads body)
  | .call c | .moduleCall _ c => c.args.flatMap Expr.reads
  | .breakLoop _ | .endCode _ => []

/-- The variables that statements read. -/
def Stmt.readsAll : List Stmt → List Var
  | [] => []
  | s :: ss => Stmt.reads s ++ Stmt.readsAll ss

end

/-! ## Scopes -/

/-- The functions of the blocks around a place, those of the innermost block first. -/
abbrev Scope := List (Linked (List FnDef))

namespace Scope

/-- The scope within a block with the given functions. -/
def push (scope : Scope) (program : ProgramId) (functions : List FnDef) : Scope :=
  if functions.isEmpty then scope else ⟨program, functions⟩ :: scope

/-- The function with the given name and number of parameters in the innermost block that has
    one. -/
def find? (scope : Scope) (name : String) (arity : Nat) : Option (Linked FnDef) :=
  scope.findSome? fun table =>
    (findFunction? table.node name arity).map fun f => ⟨table.program, f⟩

end Scope

end TierScript
