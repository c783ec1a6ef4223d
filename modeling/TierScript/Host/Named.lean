/-!
# Things by name

What a host keeps under names. A name holds one thing at a time: putting another there replaces it,
so that the latest thing is what a look-up finds.
-/

namespace TierScript

/-- Things by name. -/
abbrev Named (α : Type) := List (String × α)

namespace Named

variable {α : Type}

/-- Puts a thing under a name, in place of what was there. -/
def put (xs : Named α) (name : String) (a : α) : Named α :=
  (name, a) :: xs.filter fun x => x.1 != name

/-- Removes what is under a name. -/
def remove (xs : Named α) (name : String) : Named α := xs.filter fun x => x.1 != name

end Named

end TierScript
