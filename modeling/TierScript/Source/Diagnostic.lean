import TierScript.Source.Text

/-!
# Diagnostics

What is reported about a source that is not a program: a numeric code, its category, a message, the
span it is about, the line that span starts on, and perhaps a suggestion. The codes from 100 to 199
are lexical, all others concern the structure of the program.
-/

namespace TierScript

/-- The two kinds of diagnostics (`ErrorCategory`). -/
inductive Category where
  | lexical
  | structural
  deriving DecidableEq, Repr, Inhabited

namespace Category

/-- The category's name in messages and in JSON (`fmt` of `ErrorCategory`). -/
def render : Category → String
  | .lexical => "lexical"
  | .structural => "syntax"

/-- The category with the given name. -/
def ofName? (name : String) : Option Category :=
  if name = "lexical" then some .lexical
  else if name = "syntax" then some .structural
  else none

@[simp] theorem ofName?_render (c : Category) : ofName? c.render = some c := by
  cases c <;> decide

end Category

/-- A numeric error code (`ErrorCode`). -/
structure Code where
  value : UInt16
  deriving DecidableEq, Repr, Inhabited

namespace Code

/-- The category that a code's range stands for (`category`). -/
def category (c : Code) : Category :=
  if 100 ≤ c.value ∧ c.value ≤ 199 then .lexical else .structural

/-- The code with a leading `E` (`fmt` of `ErrorCode`). -/
def render (c : Code) : String := "E" ++ toString c.value.toNat

end Code

/-- One report about a source (`YuError`). The category is stored beside the code, because a report
    that was read back from text may disagree with its code. -/
structure Diagnostic where
  file : String
  code : Code
  category : Category
  message : String
  span : Span
  sourceLine : String
  suggestion : Option String := none
  deriving DecidableEq, Repr, Inhabited

namespace Diagnostic

/-- A report about `span` of `source`, quoting the line the span starts on (`at`). -/
def quoting (source : Source) (code : Code) (message : String) (span : Span)
    (suggestion : Option String) : Diagnostic where
  file := source.name
  code := code
  category := code.category
  message := message
  span := span
  sourceLine := String.ofList ((source.line? span.start.line).getD [])
  suggestion := suggestion

/-- The report on one line (`fmt` of `YuError`). -/
def render (d : Diagnostic) : String :=
  d.span.render ++ ": " ++ d.code.render ++ " [" ++ d.category.render ++ "] " ++ d.message

end Diagnostic

end TierScript
