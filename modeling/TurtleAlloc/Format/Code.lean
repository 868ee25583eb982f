import TurtleAlloc.Json.Record
import TurtleAlloc.Line

/-!
# Code in JSON

An opcode is its mnemonic.  An operand is an object that names its kind; so is a line.

* `Opcode.toJson`, `Operand.toJson`, `Line.toJson`, `Code.toJson` — writing;
* `Opcode.ofJson?`, `Operand.ofJson?`, `Line.ofJson?`, `Code.ofJson?` — reading.

Reading is more liberal than writing: an opcode may be an object whose only member has the mnemonic
for its name and null for its value, and an instruction without operands need not list them.
-/

namespace TurtleAlloc

namespace Opcode

/-- An opcode as a string. -/
def toJson (opcode : Opcode) : Json := .text opcode.mnemonic

/-- The opcode that a value stands for. -/
def ofJson? : Json → Option Opcode
  | .str quoted => (Json.unquote quoted).bind ofMnemonic?
  | .obj [(name, .null)] => (Json.unquote name).bind ofMnemonic?
  | _ => none

end Opcode

namespace Operand

/-- An operand under the name of its kind. -/
def toJson : Operand → Json
  | register name => .object [("register", .text name)]
  | label name => .object [("label", .text name)]
  | number value => .object [("number", .int value.toInt)]

/-- The operand that a value stands for. -/
def ofJson? (json : Json) : Option Operand :=
  match json.variant? with
  | some ("register", content) => content.text?.map register
  | some ("label", content) => content.text?.map label
  | some ("number", content) => content.int32?.map number
  | _ => none

end Operand

namespace Line

/-- A line under the name of its kind. -/
def toJson : Line → Json
  | label name => .object [("label", .text name)]
  | instr opcode operands =>
    .object [("instruction", .object [
      ("opcode", opcode.toJson),
      ("operands", .arr (operands.map Operand.toJson))])]

/-- The instruction that a record stands for. -/
def instrOfJson? (json : Json) : Option Line := do
  match ← json.record? ["opcode", "operands"] false with
  | [some opcode, operands] =>
    let opcode ← Opcode.ofJson? opcode
    let operands ← Json.optional (Json.list? Operand.ofJson?) [] operands
    pure (instr opcode operands)
  | _ => none

/-- The line that a value stands for. -/
def ofJson? (json : Json) : Option Line :=
  match json.variant? with
  | some ("label", content) => content.text?.map label
  | some ("instruction", content) => instrOfJson? content
  | _ => none

end Line

namespace Code

/-- A stream as the array of its lines. -/
def toJson (code : Code) : Json := .arr (code.map Line.toJson)

/-- The stream that a value stands for. -/
def ofJson? : Json → Option Code := Json.list? Line.ofJson?

end Code

end TurtleAlloc
