import TierScript.Json.Decode
import TierScript.Json.Write

/-!
# Configurations

The limits of an interpreter and the name it gives to texts that it parses itself. A configuration
is read from a JSON object in which every member may be missing, or from a JSON array that gives the
members in order and may stop early.
-/

namespace TierScript

/-- The limits and the naming of an interpreter (`InterpreterConfig`). -/
structure Config where
  /-- How deep calls of script functions may nest. -/
  maxCallDepth : Nat := 200
  /-- How many idle contexts are kept. -/
  poolCapacity : Nat := 32
  /-- The name of texts that are parsed to be run at once. -/
  fileName : String := "<script>"
  deriving DecidableEq, Repr, Inhabited

namespace Config

/-- The JSON text of a configuration, one member a line (`to_json`). -/
def json (c : Config) : List Char :=
  "\x7b\n  \"max_call_depth\": ".toList ++ Json.writeNat c.maxCallDepth ++
  ",\n  \"context_pool_capacity\": ".toList ++ Json.writeNat c.poolCapacity ++
  ",\n  \"file_name\": ".toList ++ Json.writeString c.fileName.toList ++
  "\n\x7d".toList

/-- A natural number of 64 bits. -/
def size? (raw : Json.Raw) : Option Nat := raw.nat? Json.maxNatural

/-- A name. -/
def name? (raw : Json.Raw) : Option String := raw.text?.map String.ofList

/-- Reads a member with `read` if it is there, and takes the default otherwise. -/
def orDefault {α : Type} (default : α) (read : Json.Raw → Option α) : Option Json.Raw → Option α
  | none => some default
  | some raw => read raw

/-- The configuration with the given members; a missing one has its default. -/
def ofMembers? (depth capacity name : Option Json.Raw) : Option Config := do
  let maxCallDepth ← orDefault 200 size? depth
  let poolCapacity ← orDefault 32 size? capacity
  let fileName ← orDefault "<script>" name? name
  return { maxCallDepth, poolCapacity, fileName }

/-- The configuration that a tree describes. -/
def ofRaw? : Json.Raw → Option Config
  | .array [] => ofMembers? none none none
  | .array [a] => ofMembers? (some a) none none
  | .array [a, b] => ofMembers? (some a) (some b) none
  | .array [a, b, c] => ofMembers? (some a) (some b) (some c)
  | .object raw => do
    let members ← Json.Raw.members? (.object raw)
    ofMembers? (← Json.only? members "max_call_depth")
      (← Json.only? members "context_pool_capacity") (← Json.only? members "file_name")
  | _ => none

/-- The configuration that a JSON text describes (`from_json`). -/
def ofJson? (text : List Char) : Option Config :=
  (Json.Raw.read? text).bind ofRaw?

end Config

end TierScript
