import TierScript.Program.Parser

/-!
# Rules as loops

Five of the rules repeat something: the items of a block, arguments, parameters, the operands of an
expression and the conditions behind `&&` and `||`. They are written as recursions, and are loops:
a round takes what it can from the feed, and then the loop goes on or is left.

* `Parse.Round`: what a round comes to.
* `Parse.Unrolls`: a rule is a round and then the rest of the loop.
* `Parse.rounds`: a loop from its rounds; `items_eq_rounds` and the like: the rules are such loops.
-/

namespace TierScript

namespace Parse

variable {α β : Type}

/-! ## Rounds -/

/-- What a round of a loop comes to: the loop goes on or is left, with what the round found. -/
inductive Round (α : Type) where
  | more (found : List α)
  | last (found : List α)

/-- What comes after a round, if `rest` is the rest of the loop. -/
def Round.andThen (rest : Parse (List α)) : Round α → Parse (List α)
  | more found => do return found ++ (← rest)
  | last found => return found

/-- Rounds until one of them leaves the loop. -/
def rounds (round : Nat → Parse (Round α)) : Nat → Parse (List α)
  | 0 => exhausted
  | fuel + 1 => do (← round fuel).andThen (rounds round fuel)

/-- A round of `operands`. -/
def operandRound (fuel : Nat) : Parse (Round (ArithOp × Term)) := do
  let token ← peek
  if token.kind = .not then
    let _ ← advance
    let opToken ← advance
    match opToken.kind.arithOp? with
    | some op =>
      let operand ← term fuel
      return .more [(op, { operand with invert := !operand.invert })]
    | none => unexpected opToken "an operator after '!'"
  else
    match token.kind.arithOp? with
    | some op =>
      let _ ← advance
      let operand ← term fuel
      return .more [(op, operand)]
    | none => return .last []

/-- A round of `conditionsRest`. -/
def conditionRound (fuel : Nat) : Parse (Round (BoolOp × Condition)) := do
  let token ← peek
  match token.kind.boolOp? with
  | some op =>
    let _ ← advance
    let next ← condition fuel
    return .more [(op, next)]
  | none => return .last []

/-- A round of `argumentsRest`. -/
def argumentRound (fuel : Nat) : Parse (Round Expr) := do
  let arg ← expression fuel
  let token ← advance
  match token.kind with
  | .comma => return .more [arg]
  | .closeParen => return .last [arg]
  | _ => unexpected token "',' or ')'"

/-- A round of `parametersRest`. There is nothing in it that needs fuel. -/
def parameterRound (_ : Nat) : Parse (Round (Bool × String)) := do
  let out ← eat .star
  let name ← expectName
  let token ← advance
  match token.kind with
  | .comma => return .more [(out, name.text)]
  | .closeParen => return .last [(out, name.text)]
  | _ => unexpected token "',' or ')'"

/-- A round of `items`. -/
def itemRound (enclosure : Enclosure) (opening : Span) (fuel : Nat) : Parse (Round Item) := do
  let token ← peek
  match token.kind with
  | .openBrace =>
    let _ ← advance
    let inner ← block fuel .braces token.span
    return .more [.stmt (.block inner)]
  | .closeBrace =>
    if enclosure = .braces then
      let _ ← advance
      return .last []
    else refuse .strayCloseBrace token.span
  | .tier _ => return .more [.stmt (← assignment fuel)]
  | .identifier => return .more [.stmt (← callStmt fuel)]
  | .ifWord => return .more [.stmt (← ifStmt fuel).1]
  | .whileWord => return .more [.stmt (← whileStmt fuel)]
  | .forWord => return .more [.stmt (← forStmt fuel)]
  | .endcodeWord =>
    let _ ← advance
    return .more [.stmt (.endCode token.span)]
  | .breakWord =>
    let _ ← advance
    return .more [.stmt (.breakLoop token.span)]
  | .fnWord =>
    let _ ← advance
    return .more [← fnItem fuel token.span]
  | .semicolon =>
    let _ ← advance
    return .more []
  | .eof =>
    if enclosure = .braces then refuse .openBrace opening else return .last []
  | .endWord =>
    if enclosure = .function then return .last [] else refuse .strayEnd token.span
  | _ => unexpected token "a statement"

/-! ## Rules as loops -/

/-- The reader carries out a round and then the rest of the loop. -/
def Unrolls (rest p : Parse (List α)) (round : Parse (Round α)) : Prop :=
  p = do (← round).andThen rest

namespace Unrolls

variable {rest p q : Parse (List α)} {round round' : Parse (Round α)}

theorem bind (first : Parse β) {f : β → Parse (List α)} {g : β → Parse (Round α)}
    (h : ∀ b, Unrolls rest (f b) (g b)) : Unrolls rest (first >>= f) (first >>= g) := by
  funext feed
  simp only [bind_apply]
  cases first feed with
  | done b feed' => exact congrFun (h b) feed'
  | fault f => rfl
  | exhausted => rfl

theorem ite {c : Prop} [Decidable c] (hp : Unrolls rest p round) (hq : Unrolls rest q round') :
    Unrolls rest (if c then p else q) (if c then round else round') := by
  split
  · exact hp
  · exact hq

theorem refuse (complaint : Complaint) (span : Span) :
    Unrolls rest (Parse.refuse complaint span) (Parse.refuse complaint span) := rfl

theorem last (found : List α) : Unrolls rest (return found) (return .last found) := rfl

theorem one (a : α) : Unrolls rest (do return a :: (← rest)) (return .more [a]) := rfl

/-- A round that finds nothing. -/
theorem nothing : Unrolls rest rest (return .more []) := by
  funext feed
  show rest feed = (rest >>= fun found => return [] ++ found) feed
  rw [bind_apply]
  cases rest feed <;> rfl

end Unrolls

theorem unrolls_operands (fuel : Nat) :
    Unrolls (operands fuel) (operands (fuel + 1)) (operandRound fuel) := by
  refine .bind peek fun t => .ite ?_ ?_
  · refine .bind advance fun _ => .bind advance fun o => ?_
    cases o.kind.arithOp? with
    | some op => exact .bind (term fuel) fun _ => .one _
    | none => exact .refuse _ _
  · cases t.kind.arithOp? with
    | some op => exact .bind advance fun _ => .bind (term fuel) fun _ => .one _
    | none => exact .last []

theorem unrolls_conditionsRest (fuel : Nat) :
    Unrolls (conditionsRest fuel) (conditionsRest (fuel + 1)) (conditionRound fuel) := by
  refine .bind peek fun t => ?_
  cases t.kind.boolOp? with
  | some op => exact .bind advance fun _ => .bind (condition fuel) fun _ => .one _
  | none => exact .last []

/-- What comes after a comma or a closing parenthesis. -/
theorem Unrolls.separator {rest : Parse (List α)} (t : Token) (a : α) (expected : String) :
    Unrolls rest
      (match t.kind with
      | .comma => do return a :: (← rest)
      | .closeParen => return [a]
      | _ => unexpected t expected)
      (match t.kind with
      | .comma => return .more [a]
      | .closeParen => return .last [a]
      | _ => unexpected t expected) := by
  cases t.kind
  case comma => exact .one a
  case closeParen => exact .last [a]
  all_goals exact .refuse _ _

theorem unrolls_argumentsRest (fuel : Nat) :
    Unrolls (argumentsRest fuel) (argumentsRest (fuel + 1)) (argumentRound fuel) :=
  .bind (expression fuel) fun arg => .bind advance fun t => .separator t arg _

theorem unrolls_parametersRest (fuel : Nat) :
    Unrolls (parametersRest fuel) (parametersRest (fuel + 1)) (parameterRound fuel) :=
  .bind (eat .star) fun _ => .bind expectName fun _ => .bind advance fun t => .separator t _ _

theorem unrolls_items (enclosure : Enclosure) (opening : Span) (fuel : Nat) :
    Unrolls (items fuel enclosure opening) (items (fuel + 1) enclosure opening)
      (itemRound enclosure opening fuel) := by
  refine .bind peek fun t => ?_
  cases t.kind
  case openBrace => exact .bind advance fun _ => .bind (block fuel _ _) fun _ => .one _
  case closeBrace => exact .ite (.bind advance fun _ => .last []) (.refuse _ _)
  case tier => exact .bind (assignment fuel) fun _ => .one _
  case identifier => exact .bind (callStmt fuel) fun _ => .one _
  case ifWord => exact .bind (ifStmt fuel) fun _ => .one _
  case whileWord => exact .bind (whileStmt fuel) fun _ => .one _
  case forWord => exact .bind (forStmt fuel) fun _ => .one _
  case endcodeWord => exact .bind advance fun _ => .one _
  case breakWord => exact .bind advance fun _ => .one _
  case fnWord => exact .bind advance fun _ => .bind (fnItem fuel _) fun _ => .one _
  case semicolon => exact .bind advance fun _ => .nothing
  case eof => exact .ite (.refuse _ _) (.last [])
  case endWord => exact .ite (.last []) (.refuse _ _)
  all_goals exact .refuse _ _

/-- A recursion of which each level is a round and then the level below is a loop. -/
theorem eq_rounds {loop : Nat → Parse (List α)} {round : Nat → Parse (Round α)}
    (hzero : loop 0 = exhausted)
    (hsucc : ∀ fuel, Unrolls (loop fuel) (loop (fuel + 1)) (round fuel)) : loop = rounds round := by
  funext fuel
  induction fuel with
  | zero => exact hzero
  | succ fuel ih => rw [hsucc fuel, ih, rounds]

theorem operands_eq_rounds : operands = rounds operandRound := eq_rounds rfl unrolls_operands

theorem conditionsRest_eq_rounds : conditionsRest = rounds conditionRound :=
  eq_rounds rfl unrolls_conditionsRest

theorem argumentsRest_eq_rounds : argumentsRest = rounds argumentRound :=
  eq_rounds rfl unrolls_argumentsRest

theorem parametersRest_eq_rounds : parametersRest = rounds parameterRound :=
  eq_rounds rfl unrolls_parametersRest

theorem items_eq_rounds (enclosure : Enclosure) (opening : Span) :
    (items · enclosure opening) = rounds (itemRound enclosure opening) :=
  eq_rounds rfl (unrolls_items enclosure opening)

end Parse

end TierScript
