import TurtleAlloc.Format.Code
import TurtleAlloc.Program

/-!
# Programs and options in JSON

* `Subroutine.toJson`, `Program.toJson` — writing;
* `Subroutine.ofJson?`, `Program.ofJson?`, `Options.ofJson?` — reading; all but the name of a
  subroutine may be left out.
-/

namespace TurtleAlloc

namespace Subroutine

/-- A subroutine as an object. -/
def toJson (subroutine : Subroutine) : Json :=
  .object [("name", .text subroutine.name), ("instructions", subroutine.code.toJson)]

/-- The subroutine that a value stands for. -/
def ofJson? (json : Json) : Option Subroutine := do
  match ← json.record? ["name", "instructions"] false with
  | [some name, code] =>
    pure { name := ← name.text?, code := ← Json.optional Code.ofJson? [] code }
  | _ => none

end Subroutine

namespace Program

/-- A program as an object. -/
def toJson (program : Program) : Json :=
  .object [
    ("top_level", program.topLevel.toJson),
    ("subroutines", .arr (program.subroutines.map Subroutine.toJson))]

/-- The program that a value stands for. -/
def ofJson? (json : Json) : Option Program := do
  match ← json.record? ["top_level", "subroutines"] false with
  | [topLevel, subroutines] =>
    pure {
      topLevel := ← Json.optional Code.ofJson? [] topLevel
      subroutines := ← Json.optional (Json.list? Subroutine.ofJson?) [] subroutines }
  | _ => none

end Program

/-- The options that a value stands for. -/
def Options.ofJson? (json : Json) : Option Options := do
  match ← json.record? ["num_registers", "validate_labels"] false with
  | [registers, validateLabels] =>
    let default : Options := {}
    pure {
      registers := ← Json.optional Json.nat? default.registers registers
      validateLabels := ← Json.optional Json.bool? default.validateLabels validateLabels }
  | _ => none

end TurtleAlloc
