import TierScript.Program.Basic

/-!
# Equality of programs

Two programs are equal if they have the same nodes at the same spans. The instances below decide
this by recursion on the trees.
-/

namespace TierScript

mutual

/-- Decides equality of expressions. -/
def Expr.decEq : (a b : Expr) → Decidable (a = b)
  | ⟨ts, os, s⟩, ⟨ts', os', s'⟩ =>
    have := Term.decEqList ts ts'
    decidable_of_decidable_of_iff (p := ts = ts' ∧ os = os' ∧ s = s') (by simp)

/-- Decides equality of operands. -/
def Term.decEq : (a b : Term) → Decidable (a = b)
  | ⟨k, i, n, s⟩, ⟨k', i', n', s'⟩ =>
    have := Term.Kind.decEq k k'
    decidable_of_decidable_of_iff (p := k = k' ∧ i = i' ∧ n = n' ∧ s = s') (by simp)

/-- Decides equality of what two operands are. -/
def Term.Kind.decEq : (a b : Term.Kind) → Decidable (a = b)
  | .number n, .number n' => decidable_of_decidable_of_iff (p := n = n') (by simp)
  | .str s, .str s' => decidable_of_decidable_of_iff (p := s = s') (by simp)
  | .bool b, .bool b' => decidable_of_decidable_of_iff (p := b = b') (by simp)
  | .null, .null => isTrue rfl
  | .var v, .var v' => decidable_of_decidable_of_iff (p := v = v') (by simp)
  | .group e, .group e' =>
    have := Expr.decEq e e'
    decidable_of_decidable_of_iff (p := e = e') (by simp)
  | .number _, .str _ | .number _, .bool _ | .number _, .null | .number _, .var _
  | .number _, .group _ | .str _, .number _ | .str _, .bool _ | .str _, .null | .str _, .var _
  | .str _, .group _ | .bool _, .number _ | .bool _, .str _ | .bool _, .null | .bool _, .var _
  | .bool _, .group _ | .null, .number _ | .null, .str _ | .null, .bool _ | .null, .var _
  | .null, .group _ | .var _, .number _ | .var _, .str _ | .var _, .bool _ | .var _, .null
  | .var _, .group _ | .group _, .number _ | .group _, .str _ | .group _, .bool _
  | .group _, .null | .group _, .var _ => isFalse (by simp)

/-- Decides equality of lists of operands. -/
def Term.decEqList : (a b : List Term) → Decidable (a = b)
  | [], [] => isTrue rfl
  | [], _ :: _ => isFalse (by simp)
  | _ :: _, [] => isFalse (by simp)
  | x :: xs, y :: ys =>
    have := Term.decEq x y
    have := Term.decEqList xs ys
    decidable_of_decidable_of_iff (p := x = y ∧ xs = ys) (by simp)

end

instance : DecidableEq Expr := Expr.decEq

instance : DecidableEq Term := Term.decEq

deriving instance DecidableEq for Condition, Conditions, Call

mutual

/-- Decides equality of blocks. -/
def Block.decEq : (a b : Block) → Decidable (a = b)
  | ⟨ss, fs, s⟩, ⟨ss', fs', s'⟩ =>
    have := Stmt.decEqList ss ss'
    have := FnDef.decEqList fs fs'
    decidable_of_decidable_of_iff (p := ss = ss' ∧ fs = fs' ∧ s = s') (by simp)

/-- Decides equality of optional blocks. -/
def Block.decEqOption : (a b : Option Block) → Decidable (a = b)
  | none, none => isTrue rfl
  | none, some _ => isFalse (by simp)
  | some _, none => isFalse (by simp)
  | some x, some y =>
    have := Block.decEq x y
    decidable_of_decidable_of_iff (p := x = y) (by simp)

/-- Decides equality of function definitions. -/
def FnDef.decEq : (a b : FnDef) → Decidable (a = b)
  | ⟨n, ps, os, b, s⟩, ⟨n', ps', os', b', s'⟩ =>
    have := Block.decEq b b'
    decidable_of_decidable_of_iff (p := n = n' ∧ ps = ps' ∧ os = os' ∧ b = b' ∧ s = s') (by simp)

/-- Decides equality of lists of function definitions. -/
def FnDef.decEqList : (a b : List FnDef) → Decidable (a = b)
  | [], [] => isTrue rfl
  | [], _ :: _ => isFalse (by simp)
  | _ :: _, [] => isFalse (by simp)
  | x :: xs, y :: ys =>
    have := FnDef.decEq x y
    have := FnDef.decEqList xs ys
    decidable_of_decidable_of_iff (p := x = y ∧ xs = ys) (by simp)

/-- Decides equality of statements. -/
def Stmt.decEq (a b : Stmt) : Decidable (a = b) :=
  match a with
  | .block x =>
    match b with
    | .block y =>
      have := Block.decEq x y
      decidable_of_decidable_of_iff (p := x = y) (by simp)
    | .assign .. | .ifElse .. | .whileLoop .. | .forLoop .. | .breakLoop .. | .endCode ..
    | .call .. | .moduleCall .. => isFalse (by simp)
  | .assign v e s =>
    match b with
    | .assign v' e' s' =>
      decidable_of_decidable_of_iff (p := v = v' ∧ e = e' ∧ s = s') (by simp)
    | .block .. | .ifElse .. | .whileLoop .. | .forLoop .. | .breakLoop .. | .endCode ..
    | .call .. | .moduleCall .. => isFalse (by simp)
  | .ifElse c x o s =>
    match b with
    | .ifElse c' x' o' s' =>
      have := Block.decEq x x'
      have := Block.decEqOption o o'
      decidable_of_decidable_of_iff (p := c = c' ∧ x = x' ∧ o = o' ∧ s = s') (by simp)
    | .block .. | .assign .. | .whileLoop .. | .forLoop .. | .breakLoop .. | .endCode ..
    | .call .. | .moduleCall .. => isFalse (by simp)
  | .whileLoop c x s =>
    match b with
    | .whileLoop c' x' s' =>
      have := Block.decEq x x'
      decidable_of_decidable_of_iff (p := c = c' ∧ x = x' ∧ s = s') (by simp)
    | .block .. | .assign .. | .ifElse .. | .forLoop .. | .breakLoop .. | .endCode ..
    | .call .. | .moduleCall .. => isFalse (by simp)
  | .forLoop d r x s =>
    match b with
    | .forLoop d' r' x' s' =>
      have := Block.decEq x x'
      decidable_of_decidable_of_iff (p := d = d' ∧ r = r' ∧ x = x' ∧ s = s') (by simp)
    | .block .. | .assign .. | .ifElse .. | .whileLoop .. | .breakLoop .. | .endCode ..
    | .call .. | .moduleCall .. => isFalse (by simp)
  | .breakLoop s =>
    match b with
    | .breakLoop s' => decidable_of_decidable_of_iff (p := s = s') (by simp)
    | .block .. | .assign .. | .ifElse .. | .whileLoop .. | .forLoop .. | .endCode ..
    | .call .. | .moduleCall .. => isFalse (by simp)
  | .endCode s =>
    match b with
    | .endCode s' => decidable_of_decidable_of_iff (p := s = s') (by simp)
    | .block .. | .assign .. | .ifElse .. | .whileLoop .. | .forLoop .. | .breakLoop ..
    | .call .. | .moduleCall .. => isFalse (by simp)
  | .call c =>
    match b with
    | .call c' => decidable_of_decidable_of_iff (p := c = c') (by simp)
    | .block .. | .assign .. | .ifElse .. | .whileLoop .. | .forLoop .. | .breakLoop ..
    | .endCode .. | .moduleCall .. => isFalse (by simp)
  | .moduleCall m c =>
    match b with
    | .moduleCall m' c' => decidable_of_decidable_of_iff (p := m = m' ∧ c = c') (by simp)
    | .block .. | .assign .. | .ifElse .. | .whileLoop .. | .forLoop .. | .breakLoop ..
    | .endCode .. | .call .. => isFalse (by simp)

/-- Decides equality of lists of statements. -/
def Stmt.decEqList : (a b : List Stmt) → Decidable (a = b)
  | [], [] => isTrue rfl
  | [], _ :: _ => isFalse (by simp)
  | _ :: _, [] => isFalse (by simp)
  | x :: xs, y :: ys =>
    have := Stmt.decEq x y
    have := Stmt.decEqList xs ys
    decidable_of_decidable_of_iff (p := x = y ∧ xs = ys) (by simp)

end

instance : DecidableEq Block := Block.decEq

instance : DecidableEq FnDef := FnDef.decEq

instance : DecidableEq Stmt := Stmt.decEq

end TierScript
