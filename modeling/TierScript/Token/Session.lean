import TierScript.Token.Reader

/-!
# Sequences of reader operations

A `Reader.Session` is a reader together with the last token it returned, so that "unread the last
token" is an operation of its own.
-/

namespace TierScript.Reader

/-- An operation on a reader. -/
inductive Op where
  | next
  | unread
  | pushBack (bytes : Nat)
  deriving DecidableEq, Repr

/-- What an operation answers. -/
inductive Answer where
  | token (t : Token)
  | fault (f : Fault)
  | bytes (n : Nat)
  | nothing
  deriving DecidableEq, Repr

/-- A reader and the last token it returned. -/
structure Session where
  reader : Reader
  last : Option Token := none
  deriving DecidableEq, Repr

namespace Session

/-- Carries out one operation. A fault leaves the last token as it was. -/
def perform (s : Session) : Op → Answer × Session
  | .next =>
    match s.reader.next with
    | (.ok t, r) => (.token t, ⟨r, some t⟩)
    | (.error f, r) => (.fault f, { s with reader := r })
  | .unread =>
    match s.last with
    | some t => (.bytes (Text.byteLength t.lexeme), { s with reader := s.reader.unread t })
    | none => (.nothing, s)
  | .pushBack n => (.nothing, { s with reader := s.reader.pushBack n })

/-- Carries out the operations in order and collects their answers. -/
def performAll (s : Session) : List Op → List Answer
  | [] => []
  | op :: ops =>
    let (answer, s') := s.perform op
    answer :: performAll s' ops

end Session

end TierScript.Reader
