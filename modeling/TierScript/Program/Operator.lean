/-!
# Tiers, variables and operators

The atoms that tokens and programs share: the three tiers a variable can live in, variables, and
the operators between operands, in comparisons and between conditions.
-/

namespace TierScript

/-- Where a variable lives: private to one evaluation, shared by a session, or shared by all. -/
inductive Tier where
  | loc
  | session
  | global
  deriving DecidableEq, Repr, Inhabited

/-- The word that selects a tier in a program (`prefix`). -/
def Tier.word : Tier → String
  | .loc => "s"
  | .session => "ss"
  | .global => "sss"

/-- A variable: a tier and a name without dots (`VarRef`). -/
structure Var where
  tier : Tier
  name : String
  deriving DecidableEq, Repr, Inhabited

/-- `tier.name` (`fmt` of `VarRef`). -/
def Var.render (v : Var) : String := v.tier.word ++ "." ++ v.name

/-- An operator between two operands of an expression. -/
inductive ArithOp where
  | add
  | sub
  | mul
  | div
  deriving DecidableEq, Repr, Inhabited

/-- The spelling of an arithmetic operator (`fmt` of `ArithOp`). -/
def ArithOp.render : ArithOp → String
  | .add => "+"
  | .sub => "-"
  | .mul => "*"
  | .div => "/"

/-- An operator that compares two expressions. -/
inductive RelOp where
  | eq
  | notEq
  | lt
  | gt
  | ltEq
  | gtEq
  | startsWith
  | contains
  | endsWith
  deriving DecidableEq, Repr, Inhabited

namespace RelOp

/-- The spelling of a comparison operator (`fmt` of `RelOp`). -/
def render : RelOp → String
  | eq => "=="
  | notEq => "!="
  | lt => "<"
  | gt => ">"
  | ltEq => "<="
  | gtEq => ">="
  | startsWith => "?*"
  | contains => "?"
  | endsWith => "*?"

/-- All comparison operators. -/
def all : List RelOp := [eq, notEq, lt, gt, ltEq, gtEq, startsWith, contains, endsWith]

end RelOp

/-- An operator between two conditions. -/
inductive BoolOp where
  | and
  | or
  deriving DecidableEq, Repr, Inhabited

/-- The spelling of an operator between conditions. -/
def BoolOp.render : BoolOp → String
  | .and => "&&"
  | .or => "||"

end TierScript
