import TurtleAlloc.Block
import TurtleAlloc.Format.Code
import TurtleAlloc.Interval

/-!
# Intervals and blocks in JSON

* `Interval.toJson`, `Interval.ofJson?` — an interval; places that are not decided are left out;
* `Block.toJson`, `Block.ofJson?` — a block.
-/

namespace TurtleAlloc

namespace Interval

/-- The lines of an interval. -/
def rangeToJson (start stop : Nat) : Json :=
  .object [("start", .nat start), ("end", .nat stop)]

/-- The first line and the line behind the last one; no other members are allowed. -/
def rangeOfJson? (json : Json) : Option (Nat × Nat) := do
  match ← json.record? ["start", "end"] true with
  | [some start, some stop] => pure (← start.nat?, ← stop.nat?)
  | _ => none

/-- An interval as an object. -/
def toJson (interval : Interval) : Json :=
  .object (
    [("register", .text interval.register),
      ("range", rangeToJson interval.start interval.stop)] ++
    (interval.physical.map fun name => ("physical", Json.text name)).toList ++
    (interval.slot.map fun slot => ("spill_slot", Json.nat slot)).toList)

/-- The interval that a value stands for. -/
def ofJson? (json : Json) : Option Interval := do
  match ← json.record? ["register", "range", "physical", "spill_slot"] false with
  | [some register, some range, physical, slot] =>
    let register ← register.text?
    let (start, stop) ← rangeOfJson? range
    let physical ← Json.nullable Json.text? physical
    let slot ← Json.nullable Json.nat? slot
    pure { register, start, stop, physical, slot }
  | _ => none

end Interval

namespace Block

/-- A block as an object. -/
def toJson (block : Block) : Json :=
  .object [("start", .nat block.start), ("instructions", block.code.toJson)]

/-- The block that a value stands for. -/
def ofJson? (json : Json) : Option Block := do
  match ← json.record? ["start", "instructions"] false with
  | [some start, some code] => pure ⟨← start.nat?, ← Code.ofJson? code⟩
  | _ => none

end Block

end TurtleAlloc
