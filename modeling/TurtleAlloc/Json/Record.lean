import TurtleAlloc.Json.Basic

/-!
# Records and variants in JSON

A record is written as an object with fixed names, or as an array of its fields in a fixed order.
A choice is written as an object with one member, which names the alternative.

* `Json.record?` — the fields of a record;
* `Json.variant?` — the name and the content of a choice.
-/

namespace TurtleAlloc.Json

/-- The members of an object with their names as texts; nothing if a name is no text. -/
def members? (members : List (List Char × Json)) : Option (List (String × Json)) :=
  members.mapM fun (name, value) => (unquote name).map (·, value)

/-- The value of a field: absent, present, or given more than once. -/
def field? (members : List (String × Json)) (name : String) : Option (Option Json) :=
  match members.filter fun member => member.1 == name with
  | [] => some none
  | [member] => some (some member.2)
  | _ => none

/-- The fields of a record in the given order, absent ones left open.  In an object, members
without a field are passed over unless the record is `closed`; in an array, only the last fields
may be absent. -/
def record? (fields : List String) (closed : Bool) : Json → Option (List (Option Json))
  | arr items =>
    if items.length ≤ fields.length then
      some ((List.range fields.length).map fun index => items[index]?)
    else none
  | obj members => do
    let members ← members? members
    if closed && members.any fun member => !fields.contains member.1 then none
    else fields.mapM (field? members)
  | _ => none

/-- The name of the chosen alternative and its content. -/
def variant? : Json → Option (String × Json)
  | obj [(name, value)] => (unquote name).map (·, value)
  | _ => none

/-- A field that may be absent. -/
def optional {α : Type} (read? : Json → Option α) (default : α) : Option Json → Option α
  | none => some default
  | some value => read? value

/-- A field that may be absent or null. -/
def nullable {α : Type} (read? : Json → Option α) : Option Json → Option (Option α)
  | none | some null => some none
  | some value => (read? value).map some

end TurtleAlloc.Json
