import TierScript.Value.Basic

/-!
# Variables by name

A `Vars` holds the variables of one place by name. Writing null removes a variable, and a variable
that is not there reads as null.
-/

namespace TierScript

/-- Variables and their values, each name at most once (`VariableStore`). -/
structure Vars where
  entries : List (String × Value) := []
  deriving Repr, Inhabited

namespace Vars

/-- The value of a variable (`get`). -/
def get (vs : Vars) (name : String) : Value := (vs.entries.lookup name).getD .null

/-- Removes a variable. -/
def erase (vs : Vars) (name : String) : Vars := ⟨vs.entries.filter fun e => e.1 != name⟩

/-- Gives a variable a value; null removes it (`set`). -/
def set (vs : Vars) (name : String) (value : Value) : Vars :=
  if value.isNull then vs.erase name else ⟨(name, value) :: (vs.erase name).entries⟩

/-- Whether there is a variable with the given name (`contains`). -/
def contains (vs : Vars) (name : String) : Bool := vs.entries.any fun e => e.1 == name

/-- The number of variables (`len`). -/
def size (vs : Vars) : Nat := vs.entries.length

/-- Whether there are no variables (`is_empty`). -/
def isEmpty (vs : Vars) : Bool := vs.entries.isEmpty

end Vars

end TierScript
