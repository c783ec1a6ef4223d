import TierScript.Host.Named
import TierScript.Run.Pool

/-!
# Loans from a pool

A host that works with a pool directly holds the contexts it has taken under names. Taking a context
under a name that is in use first takes the new one and then gives the old one back.
-/

namespace TierScript

/-- A pool and the contexts that are on loan from it, by name. -/
structure Loans where
  pool : Pool := {}
  stores : Stores := {}
  held : Named Context := []
  deriving Inhabited

namespace Loans

/-- Takes a context from the pool. What was held under the name before goes back afterwards. -/
def obtain (l : Loans) (name : String) (session : SessionId) : Loans :=
  let (c, pool, stores) := l.pool.obtain l.stores session
  let pool := match l.held.lookup name with
    | some old => pool.release old
    | none => pool
  { pool, stores, held := l.held.put name c }

/-- Gives a context back (`drop` of `PooledContext`). -/
def release (l : Loans) (name : String) : Loans :=
  match l.held.lookup name with
  | some c => { l with pool := l.pool.release c, held := l.held.remove name }
  | none => l

/-- Changes a context on loan. -/
def modify (l : Loans) (name : String) (f : Context → Stores → Context × Stores) : Loans :=
  match l.held.lookup name with
  | some c =>
    let (c, stores) := f c l.stores
    { l with stores, held := l.held.put name c }
  | none => l

end Loans

end TierScript
