import TierScript.Run.Context

/-!
# Pools of contexts

A pool keeps contexts that are not in use, up to its capacity. A context that is given back is
cleared; the one that was given back last is handed out first.
-/

namespace TierScript

/-- Idle contexts, the last one given back first (`ContextPool`). -/
structure Pool where
  capacity : Nat := 32
  idle : List Context := []
  deriving Inhabited

namespace Pool

/-- A context of the given session: an idle one if there is one, a new one otherwise (`obtain`). -/
def obtain (p : Pool) (stores : Stores) (session : SessionId) : Context × Pool × Stores :=
  match p.idle with
  | c :: rest =>
    let (c, stores) := c.rebind stores session
    (c, { p with idle := rest }, stores)
  | [] =>
    let (c, stores) := Context.create stores session
    (c, p, stores)

/-- Gives a context back (`release`). A pool that is full lets it go. -/
def release (p : Pool) (c : Context) : Pool :=
  if p.idle.length < p.capacity then { p with idle := c.reset :: p.idle } else p

end Pool

end TierScript
