import TierScript.Run.Vars

/-!
# Shared variables

The variables that outlive an evaluation: one set that everybody shares, and one for each session.
The set of a session is made when it is first asked for. Forgetting a session does not take its
variables away from those who already hold them; it only means that the next to ask gets a new set.
-/

namespace TierScript

/-- The number of a session. -/
abbrev SessionId := Nat

/-- The name of a session in messages (`fmt` of `SessionId`). -/
def sessionName (session : SessionId) : String := "session#" ++ toString session

/-- A reference to a set of session variables. -/
abbrev StoreId := Nat

/-- All shared variables (`GLOBAL_STORE` and `SESSION_STORES`). -/
structure Stores where
  global : Vars := {}
  /-- Every set of session variables that was ever made. -/
  tables : Array Vars := #[]
  /-- The set that a session has now. -/
  sessions : List (SessionId × StoreId) := []
  deriving Repr, Inhabited

namespace Stores

/-- The set that a session has now, made if there is none (`session_store`). -/
def obtain (s : Stores) (session : SessionId) : StoreId × Stores :=
  match s.sessions.lookup session with
  | some id => (id, s)
  | none =>
    (s.tables.size,
      { s with tables := s.tables.push {}, sessions := (session, s.tables.size) :: s.sessions })

/-- Forgets the set that a session has, and tells whether it had one (`clear_session`). -/
def forget (s : Stores) (session : SessionId) : Bool × Stores :=
  ((s.sessions.lookup session).isSome,
    { s with sessions := s.sessions.filter fun e => e.1 != session })

/-- The variables of a set. -/
def table (s : Stores) (id : StoreId) : Vars := s.tables[id]?.getD {}

/-- Changes the variables of a set. -/
def update (s : Stores) (id : StoreId) (f : Vars → Vars) : Stores :=
  { s with tables := s.tables.modify id f }

end Stores

end TierScript
