import TurtleAlloc.Json.Token

/-!
# Reading JSON

A `Reader` takes the tokens of a text one at a time.  Arrays and objects that are not closed yet
wait on a stack, so a value may be nested to any depth.

* `Open`, `Reader` — a container that waits for a value; what may come next;
* `Reader.give`, `Reader.step` — a finished value, and one token more;
* `Json.parse?` — the value of a whole text.
-/

namespace TurtleAlloc.Json

/-- A container that waits for its next value.  Finished parts are kept latest first. -/
inductive Open where
  | array (items : List Json)
  /-- An object that waits for the value of a member. -/
  | member (members : List (List Char × Json)) (name : List Char)
  deriving Repr

/-- What may come next, with the containers around it, the innermost first. -/
inductive Reader where
  /-- A value. -/
  | value (outer : List Open)
  /-- A value, or the end of an empty array. -/
  | arrayStart (outer : List Open)
  /-- A comma, or the end of an array. -/
  | arrayNext (items : List Json) (outer : List Open)
  /-- A member, or the end of an empty object. -/
  | objectStart (outer : List Open)
  /-- The name of a member. -/
  | memberName (members : List (List Char × Json)) (outer : List Open)
  /-- The colon behind the name of a member. -/
  | memberColon (members : List (List Char × Json)) (name : List Char) (outer : List Open)
  /-- A comma, or the end of an object. -/
  | objectNext (members : List (List Char × Json)) (outer : List Open)
  /-- Nothing. -/
  | finished (value : Json)
  deriving Repr

namespace Reader

/-- Hand a finished value to the container that waits for it. -/
def give (value : Json) : List Open → Reader
  | [] => finished value
  | .array items :: outer => arrayNext (value :: items) outer
  | .member members name :: outer => objectNext ((name, value) :: members) outer

/-- Read the first token of a value. -/
def beginValue (outer : List Open) : Token → Option Reader
  | .null => some (give .null outer)
  | .bool truth => some (give (.bool truth) outer)
  | .num numeral => some (give (.num numeral) outer)
  | .str quoted => some (give (.str quoted) outer)
  | .beginArray => some (arrayStart outer)
  | .beginObject => some (objectStart outer)
  | .endArray | .endObject | .comma | .colon => none

/-- Read one token. -/
def step : Reader → Token → Option Reader
  | value outer, token => beginValue outer token
  | arrayStart outer, .endArray => some (give (.arr []) outer)
  | arrayStart outer, token => beginValue (.array [] :: outer) token
  | arrayNext items outer, .comma => some (value (.array items :: outer))
  | arrayNext items outer, .endArray => some (give (.arr items.reverse) outer)
  | objectStart outer, .endObject => some (give (.obj []) outer)
  | objectStart outer, .str name => some (memberColon [] name outer)
  | memberName members outer, .str name => some (memberColon members name outer)
  | memberColon members name outer, .colon => some (value (.member members name :: outer))
  | objectNext members outer, .comma => some (memberName members outer)
  | objectNext members outer, .endObject => some (give (.obj members.reverse) outer)
  | _, _ => none

/-- Read some tokens. -/
def run (reader : Reader) : List Token → Option Reader
  | [] => some reader
  | token :: rest =>
    match reader.step token with
    | some reader => reader.run rest
    | none => none

/-- The value that has been read, if it is complete. -/
def value? : Reader → Option Json
  | finished json => some json
  | _ => none

end Reader

/-- The value of a text that is exactly one JSON value, with blanks around it. -/
def parse? (text : String) : Option Json := do
  let tokens ← tokens? text.toList
  let reader ← Reader.run (.value []) tokens
  reader.value?

end TurtleAlloc.Json
