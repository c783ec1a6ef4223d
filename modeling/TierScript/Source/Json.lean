import TierScript.Json.Decode
import TierScript.Json.Write
import TierScript.Source.Diagnostic

/-!
# Diagnostics as JSON

A diagnostic is written as one object with the positions of its span among its members, and without
a `suggestion` if it has none. Read back, every member but the suggestion must be there once, in any
order; members with other names are passed over, but must be meaningful JSON.
-/

namespace TierScript.Diagnostic

/-- The members of the object that a diagnostic is written as. -/
def members (d : Diagnostic) : List (String × List Char) :=
  [("file", Json.writeString d.file.toList),
   ("code", Json.writeNat d.code.value.toNat),
   ("category", Json.writeString d.category.render.toList),
   ("message", Json.writeString d.message.toList),
   ("line", Json.writeNat d.span.start.line),
   ("column", Json.writeNat d.span.start.col),
   ("end_line", Json.writeNat d.span.stop.line),
   ("end_column", Json.writeNat d.span.stop.col),
   ("source_line", Json.writeString d.sourceLine.toList)] ++
  match d.suggestion with
  | some s => [("suggestion", Json.writeString s.toList)]
  | none => []

/-- Members with a colon after each name and commas in between. -/
def writeMembers : List (String × List Char) → List Char
  | [] => []
  | [(key, value)] => Json.writeString key.toList ++ ':' :: value
  | (key, value) :: next :: rest =>
    Json.writeString key.toList ++ ':' :: value ++ ',' :: writeMembers (next :: rest)

/-- The JSON text of a diagnostic. -/
def json (d : Diagnostic) : List Char :=
  '\x7b' :: writeMembers d.members ++ ['\x7d']

/-- The value of the member called `name`, which must be there once. -/
def required? (members : List (List Char × Json.Raw)) (name : String) : Option Json.Raw :=
  (Json.only? members name).bind id

/-- A category: its name, or an object with null under that name. -/
def category? : Json.Raw → Option Category
  | .string pieces => (Json.decodePieces? pieces).bind fun cs => Category.ofName? (String.ofList cs)
  | .object [(key, .null)] =>
    (Json.decodePieces? key).bind fun cs => Category.ofName? (String.ofList cs)
  | _ => none

/-- A suggestion, where null stands for none. -/
def suggestion? : Option Json.Raw → Option (Option String)
  | none => some none
  | some .null => some none
  | some raw => raw.text?.map fun cs => some (String.ofList cs)

/-- The names of the members that a diagnostic takes up one by one. -/
def directNames : List String :=
  ["file", "code", "category", "message", "source_line", "suggestion"]

/-- A position is a natural number of 32 bits. -/
def position? (members : List (List Char × Json.Raw)) (name : String) : Option Nat :=
  (required? members name).bind (Json.Raw.nat? (2 ^ 32 - 1))

/-- A text under the given name. -/
def text? (members : List (List Char × Json.Raw)) (name : String) : Option String :=
  (required? members name).bind fun raw => raw.text?.map String.ofList

/-- The diagnostic that a tree describes. -/
def ofRaw? (raw : Json.Raw) : Option Diagnostic := do
  let members ← raw.members?
  let others := members.filter fun m => !directNames.contains (String.ofList m.1)
  if others.all (fun m => m.2.isSound (Json.maxDepth - 1)) then
    let file ← text? members "file"
    let code ← (← required? members "code").nat? (2 ^ 16 - 1)
    let category ← category? (← required? members "category")
    let message ← text? members "message"
    let line ← position? members "line"
    let column ← position? members "column"
    let endLine ← position? members "end_line"
    let endColumn ← position? members "end_column"
    let sourceLine ← text? members "source_line"
    let suggestion ← suggestion? (← Json.only? members "suggestion")
    return { file, code := ⟨code.toUInt16⟩, category, message,
             span := ⟨⟨line, column⟩, ⟨endLine, endColumn⟩⟩, sourceLine, suggestion }
  else none

/-- The diagnostic that a JSON text describes. -/
def ofJson? (text : List Char) : Option Diagnostic :=
  (Json.Raw.read? text).bind ofRaw?

end TierScript.Diagnostic
