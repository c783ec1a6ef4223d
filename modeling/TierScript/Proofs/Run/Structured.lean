import TierScript.Proofs.Run.Rules

/-!
# Structured control flow

A second account of evaluation that has no marks for broken loops and no mark for an early exit.
Here `break` and `endcode` are outcomes: a statement ends normally, by breaking out of the loop
around it, by leaving the function, or with an error, and every construct either passes the outcome
of its parts on or absorbs it.

* Statements in order stop at the first one that does not end normally.
* `while` and `for` absorb a break; a call of a script function absorbs an exit.
* A break that runs while no loop of the same call is running is an error at its span.
* A host function goes on when a block that it runs breaks or exits. Its call then ends so too, and
  the blocks that it runs afterwards do nothing.

The rules use the machines of the evaluator, but never look at or change the marks of a context.
-/

namespace TierScript

namespace Eval

open Machine

/-- What a run comes to. -/
inductive Outcome where
  | normal
  | broke
  | exited
  | error (e : EvalError)

/-- What the blocks that a host function ran so far have come to, errors apart: the host function
    itself decides what becomes of those. -/
inductive Signal where
  | normal
  | broke
  | exited
  deriving DecidableEq

namespace Outcome

/-- The outcome of what either goes well or fails. -/
def of : Except EvalError Unit → Outcome
  | .ok () => .normal
  | .error e => .error e

/-- What the evaluator answers where the outcome is this one. -/
def result : Outcome → Except EvalError Unit
  | .error e => .error e
  | _ => .ok ()

/-- What is pending in a host function after a block with that outcome. -/
def signal : Outcome → Signal
  | .broke => .broke
  | .exited => .exited
  | _ => .normal

/-- The outcome of a loop whose rounds came to this one. -/
def absorbBreak : Outcome → Outcome
  | .broke => .normal
  | o => o

end Outcome

/-- The outcome of a host function that ends without a failure. -/
def Signal.outcome : Signal → Outcome
  | .normal => .normal
  | .broke => .broke
  | .exited => .exited

/-- A request that neither looks at nor changes the marks of the context, and runs blocks on that
    context only. -/
def Neutral : Action → Prop
  | .enterLoop _ | .exitLoop _ | .breakLoop _ | .setExit _ | .clearExit _ => False
  | .runApart .. | .spawn .. => False
  | .look next =>
    ∀ (c : Context) loops earlyExit, next { c with loops, earlyExit } = next c
  | _ => True

/-- The job comes to the outcome and leaves the second machine. A loop of the same call is running
    when it starts, or not. The signal is pending when it starts; only host functions go on then. -/
inductive Runs : Env → Bool → Signal → Job → Machine → Outcome → Machine → Prop where
  | block {env inLoop b m o m'} :
      Runs env inLoop .normal (.stmts b.program b.node.stmts) (m.enterBlock b) o m' →
      Runs env inLoop .normal (.block b) m o (m'.leaveBlock b)
  -- Statements in order
  | stmtsNil {env inLoop program m} :
      Runs env inLoop .normal (.stmts program []) m .normal m
  | stmtsStop {env inLoop program s rest m o m'} :
      Runs env inLoop .normal (.stmt program s) (offering program rest m) o m' → o ≠ .normal →
      Runs env inLoop .normal (.stmts program (s :: rest)) m o m'
  | stmtsNext {env inLoop program s rest m m₁ o m'} :
      Runs env inLoop .normal (.stmt program s) (offering program rest m) .normal m₁ →
      Runs env inLoop .normal (.stmts program (remaining rest m₁)) m₁ o m' →
      Runs env inLoop .normal (.stmts program (s :: rest)) m o m'
  -- One statement
  | stmtBlock {env inLoop program b m o m'} :
      Runs env inLoop .normal (.block ⟨program, b⟩) m o m' →
      Runs env inLoop .normal (.stmt program (.block b)) m o m'
  | assign {env inLoop program target value span m r m'} :
      m.assign target value = (r, m') →
      Runs env inLoop .normal (.stmt program (.assign target value span)) m (.of r) m'
  | ifError {env inLoop program condition body otherwise span m e} :
      condition.eval m.lookup = .error e →
      Runs env inLoop .normal (.stmt program (.ifElse condition body otherwise span)) m
        (.error (.arith e)) m
  | ifTrue {env inLoop program condition body otherwise span m o m'} :
      condition.eval m.lookup = .ok true →
      Runs env inLoop .normal (.block ⟨program, body⟩) m o m' →
      Runs env inLoop .normal (.stmt program (.ifElse condition body otherwise span)) m o m'
  | ifFalse {env inLoop program condition body b span m o m'} :
      condition.eval m.lookup = .ok false →
      Runs env inLoop .normal (.block ⟨program, b⟩) m o m' →
      Runs env inLoop .normal (.stmt program (.ifElse condition body (some b) span)) m o m'
  | ifNone {env inLoop program condition body span m} :
      condition.eval m.lookup = .ok false →
      Runs env inLoop .normal (.stmt program (.ifElse condition body none span)) m .normal m
  | stmtWhile {env inLoop program condition body span m o m'} :
      Runs env true .normal (.whileLoop condition ⟨program, body⟩) m o m' →
      Runs env inLoop .normal (.stmt program (.whileLoop condition body span)) m o.absorbBreak m'
  | forDestError {env inLoop program dest src body span m e} :
      dest.eval m.lookup = .error e →
      Runs env inLoop .normal (.stmt program (.forLoop dest src body span)) m (.error (.arith e)) m
  | forSrcError {env inLoop program dest src body span m d e} :
      dest.eval m.lookup = .ok d → src.eval m.lookup = .error e →
      Runs env inLoop .normal (.stmt program (.forLoop dest src body span)) m (.error (.arith e)) m
  | stmtFor {env inLoop program dest src body span m d s o m'} :
      dest.eval m.lookup = .ok d → src.eval m.lookup = .ok s →
      Runs env true .normal (.forLoop dest d s ⟨program, body⟩ span) m o m' →
      Runs env inLoop .normal (.stmt program (.forLoop dest src body span)) m o.absorbBreak m'
  | breakLoop {env program span m} :
      Runs env true .normal (.stmt program (.breakLoop span)) m .broke m
  | breakOutside {env program span m} :
      Runs env false .normal (.stmt program (.breakLoop span)) m
        (.error (.breakOutsideLoop span)) m
  | endCode {env inLoop program span m} :
      Runs env inLoop .normal (.stmt program (.endCode span)) m .exited m
  | callError {env inLoop program c m e m'} :
      m.resolve env program c = (.error e, m') →
      Runs env inLoop .normal (.stmt program (.call c)) m (.error e) m'
  | call {env inLoop program c m callable m₁ o m'} :
      m.resolve env program c = (.ok callable, m₁) →
      Runs env inLoop .normal (.invoke callable c.args) m₁ o m' →
      Runs env inLoop .normal (.stmt program (.call c)) m o m'
  | moduleCallError {env inLoop program module c m e m'} :
      m.resolveModuleCall env program module c = (.error e, m') →
      Runs env inLoop .normal (.stmt program (.moduleCall module c)) m (.error e) m'
  | moduleCall {env inLoop program module c m callable m₁ o m'} :
      m.resolveModuleCall env program module c = (.ok callable, m₁) →
      Runs env inLoop .normal (.invoke callable c.args) m₁ o m' →
      Runs env inLoop .normal (.stmt program (.moduleCall module c)) m o m'
  -- Loops
  | whileError {env inLoop condition body m e} :
      condition.eval m.lookup = .error e →
      Runs env inLoop .normal (.whileLoop condition body) m (.error (.arith e)) m
  | whileFalse {env inLoop condition body m} :
      condition.eval m.lookup = .ok false →
      Runs env inLoop .normal (.whileLoop condition body) m .normal m
  | whileStop {env inLoop condition body m o m'} :
      condition.eval m.lookup = .ok true →
      Runs env inLoop .normal (.block body) m o m' → o ≠ .normal →
      Runs env inLoop .normal (.whileLoop condition body) m o m'
  | whileNext {env inLoop condition body m m₁ o m'} :
      condition.eval m.lookup = .ok true →
      Runs env inLoop .normal (.block body) m .normal m₁ →
      Runs env inLoop .normal (.whileLoop condition body) m₁ o m' →
      Runs env inLoop .normal (.whileLoop condition body) m o m'
  | forRange {env inLoop dest d s body span m first last o m'} :
      d.toInteger? = some first → s.toInteger? = some last →
      Runs env inLoop .normal (.times (rangeCount first last) body) m o m' →
      Runs env inLoop .normal (.forLoop dest d s body span) m o m'
  | forArray {env inLoop dest d items body span m v o m'} :
      dest.plainVar? = some v →
      Runs env inLoop .normal (.forEach v items body) m o m' →
      Runs env inLoop .normal (.forLoop dest d (.array items) body span) m o m'
  | forSkip {env inLoop dest d s body span m} :
      (∀ first last, d.toInteger? = some first → s.toInteger? ≠ some last) →
      (∀ v items, dest.plainVar? = some v → s ≠ .array items) →
      Runs env inLoop .normal (.forLoop dest d s body span) m .normal
        (m.note (.skippedLoop span d.typeName s.typeName))
  | timesZero {env inLoop body m} :
      Runs env inLoop .normal (.times 0 body) m .normal m
  | timesStop {env inLoop count body m o m'} :
      Runs env inLoop .normal (.block body) m o m' → o ≠ .normal →
      Runs env inLoop .normal (.times (count + 1) body) m o m'
  | timesNext {env inLoop count body m m₁ o m'} :
      Runs env inLoop .normal (.block body) m .normal m₁ →
      Runs env inLoop .normal (.times count body) m₁ o m' →
      Runs env inLoop .normal (.times (count + 1) body) m o m'
  | forEachNil {env inLoop v body m} :
      Runs env inLoop .normal (.forEach v [] body) m .normal m
  | forEachStop {env inLoop v item rest body m o m'} :
      Runs env inLoop .normal (.block body) (m.write v item) o m' → o ≠ .normal →
      Runs env inLoop .normal (.forEach v (item :: rest) body) m o m'
  | forEachNext {env inLoop v item rest body m m₁ o m'} :
      Runs env inLoop .normal (.block body) (m.write v item) .normal m₁ →
      Runs env inLoop .normal (.forEach v rest body) m₁ o m' →
      Runs env inLoop .normal (.forEach v (item :: rest) body) m o m'
  -- Calls
  | invokeScript {env inLoop f args m o m'} :
      Runs env inLoop .normal (.script f args) m o m' →
      Runs env inLoop .normal (.invoke (.script f) args) m o m'
  | invokeNative {env inLoop name arity body args m o m'} :
      Runs env inLoop .normal (.action name (body args)) m o m' →
      Runs env inLoop .normal (.invoke (.native name arity body) args) m o m'
  | tooDeep {env inLoop f args m} :
      env.config.maxCallDepth < m.ctx.depth + 1 →
      Runs env inLoop .normal (.script f args) m
        (.error (.callDepthExceeded env.config.maxCallDepth)) m
  | badArgument {env inLoop f args m e m₀} :
      m.ctx.depth + 1 ≤ env.config.maxCallDepth →
      m.enterCall f.node args = (.error e, m₀) →
      Runs env inLoop .normal (.script f args) m (.error (.arith e)) (m₀.abandonCall m.ctx)
  | bodyError {env inLoop f args m m₀ e m₁} :
      m.ctx.depth + 1 ≤ env.config.maxCallDepth →
      m.enterCall f.node args = (.ok (), m₀) →
      Runs (env.hold (.ofFunction f)) false .normal (.block ⟨f.program, f.node.body⟩) m₀
        (.error e) m₁ →
      Runs env inLoop .normal (.script f args) m (.error e) (m₁.abandonCall m.ctx)
  | returned {env inLoop f args m m₀ o m₁} :
      m.ctx.depth + 1 ≤ env.config.maxCallDepth →
      m.enterCall f.node args = (.ok (), m₀) →
      Runs (env.hold (.ofFunction f)) false .normal (.block ⟨f.program, f.node.body⟩) m₀ o m₁ →
      o = .normal ∨ o = .exited →
      Runs env inLoop .normal (.script f args) m .normal (m₁.leaveCall m.ctx f.node args)
  -- Requests of a host function
  | done {env inLoop signal name m} :
      Runs env inLoop signal (.action name .done) m signal.outcome m
  | fail {env inLoop signal name cause m} :
      Runs env inLoop signal (.action name (.fail cause)) m (.error (.native name cause)) m
  | request {env inLoop signal name a m a₁ m₁ o m'} :
      Neutral a → a.answer? m = some (a₁, m₁) →
      Runs env inLoop signal (.action name a₁) m₁ o m' →
      Runs env inLoop signal (.action name a) m o m'
  | run {env inLoop name b next m o₁ m₁ o m'} :
      Runs (env.hold (.ofBlock b)) inLoop .normal (.block b) m o₁ m₁ →
      Runs env inLoop o₁.signal (.action name (next o₁.result)) m₁ o m' →
      Runs env inLoop .normal (.action name (.run b next)) m o m'
  | runNothing {env inLoop signal name b next m o m'} :
      signal ≠ .normal →
      Runs env inLoop signal (.action name (next (.ok ()))) m o m' →
      Runs env inLoop signal (.action name (.run b next)) m o m'

end Eval

end TierScript
