import TurtleAlloc.Opcode
import TurtleAlloc.Register

/-!
# Lines of assembly

* `Operand`, `Line`, `Code` — a register, label or number; a label declaration or an
  instruction; a stream of lines;
* `Line.referenced`, `Line.sources`, `Line.destinations` — the registers that a line names,
  reads and writes: `referenced_registers`, `source_registers` and `destination_registers`;
* `Line.mapRegisters`, `Line.rename`, `Code.rename` — renaming of register operands, which keeps
  their roles (`sources_mapRegisters`, `destinations_mapRegisters`);
* `Operand.text`, `Line.text`, `Code.listing` — how code is written.
-/

namespace TurtleAlloc

/-- What an instruction works on. -/
inductive Operand where
  | register (name : String)
  | label (name : String)
  | number (value : Int32)
  deriving DecidableEq, Repr

/-- A label declaration, or an instruction with its operands. -/
inductive Line where
  | label (name : String)
  | instr (opcode : Opcode) (operands : List Operand)
  deriving DecidableEq, Repr

/-- A stream of lines, in the order they are laid out. -/
abbrev Code := List Line

namespace Operand

/-- The name of a register operand. -/
def register? : Operand → Option String
  | register name => some name
  | label _ => none
  | number _ => none

/-- An operand as it is written in a listing. -/
def text : Operand → String
  | register name => name
  | label name => name
  | number value => value.toInt.repr

/-- An operand with its register, if it is one, replaced by that register's image. -/
def mapRegister (f : String → String) : Operand → Operand
  | register name => register (f name)
  | label name => label name
  | number value => number value

end Operand

namespace Line

/-- The opcode of an instruction. -/
def opcode? : Line → Option Opcode
  | label _ => none
  | instr opcode _ => some opcode

/-- The operands of an instruction; a label declaration has none. -/
def operands : Line → List Operand
  | label _ => []
  | instr _ operands => operands

/-- Whether a line declares a label. -/
def isLabel : Line → Bool
  | label _ => true
  | instr _ _ => false

/-- Whether a basic block ends after a line. -/
def isTerminator : Line → Bool
  | label _ => false
  | instr opcode _ => opcode.isTerminator

/-! ## Operand roles

Registers are listed from the last operand to the first. -/

/-- The register names among some operands, the last one first. -/
def registersOf (operands : List Operand) : List String :=
  (operands.filterMap Operand.register?).reverse

/-- The registers that a line names, in whatever role. -/
def referenced (line : Line) : List String :=
  registersOf line.operands

/-- The registers that a line reads. -/
def sources : Line → List String
  | label _ => []
  | instr opcode operands =>
    if opcode.readsAll then registersOf operands
    else if opcode.writesFirst then registersOf operands.tail
    else []

/-- The register that a line writes, if there is one. -/
def destinations : Line → List String
  | label _ => []
  | instr opcode operands =>
    if opcode.writesFirst then registersOf (operands.take 1) else []

/-! ## Renaming -/

/-- Replace every register operand by its image; labels and numbers stay. -/
def mapRegisters (f : String → String) : Line → Line
  | label name => label name
  | instr opcode operands => instr opcode (operands.map (Operand.mapRegister f))

/-- Replace one register name by another. -/
def rename (old new : String) (line : Line) : Line :=
  line.mapRegisters fun name => if name = old then new else name

@[simp] theorem mapRegisters_id (line : Line) : line.mapRegisters (fun name => name) = line := by
  have same : Operand.mapRegister (fun name => name) = id := by
    funext operand
    cases operand <;> rfl
  cases line <;> simp [mapRegisters, same]

theorem mapRegisters_mapRegisters (f g : String → String) (line : Line) :
    (line.mapRegisters f).mapRegisters g = line.mapRegisters fun name => g (f name) := by
  have comp : Operand.mapRegister g ∘ Operand.mapRegister f =
      Operand.mapRegister fun name => g (f name) := by
    funext operand
    cases operand <;> rfl
  cases line <;> simp [mapRegisters, comp]

@[simp] theorem rename_rename (old new : String) (line : Line) :
    (line.rename old new).rename old new = line.rename old new := by
  simp only [rename, mapRegisters_mapRegisters]
  congr 1
  funext name
  split <;> simp_all

theorem registersOf_map (f : String → String) (operands : List Operand) :
    registersOf (operands.map (Operand.mapRegister f)) = (registersOf operands).map f := by
  have comp : Operand.register? ∘ Operand.mapRegister f =
      fun operand => operand.register?.map f := by
    funext operand
    cases operand <;> rfl
  simp only [registersOf, List.filterMap_map, comp, List.map_reverse, List.map_filterMap]

/-- Renaming keeps every role: the renamed line names the images of what the line names. -/
@[simp] theorem referenced_mapRegisters (f : String → String) (line : Line) :
    (line.mapRegisters f).referenced = line.referenced.map f := by
  cases line with
  | label name => rfl
  | instr opcode operands => exact registersOf_map f operands

@[simp] theorem sources_mapRegisters (f : String → String) (line : Line) :
    (line.mapRegisters f).sources = line.sources.map f := by
  cases line with
  | label name => rfl
  | instr opcode operands =>
    simp only [mapRegisters, sources]
    rw [← List.map_tail, registersOf_map, registersOf_map]
    split
    · rfl
    · split <;> rfl

@[simp] theorem destinations_mapRegisters (f : String → String) (line : Line) :
    (line.mapRegisters f).destinations = line.destinations.map f := by
  cases line with
  | label name => rfl
  | instr opcode operands =>
    simp only [mapRegisters, destinations]
    rw [← List.map_take, registersOf_map]
    split <;> rfl

@[simp] theorem opcode?_mapRegisters (f : String → String) (line : Line) :
    (line.mapRegisters f).opcode? = line.opcode? := by
  cases line <;> rfl

/-- `ENTER` reads and writes no register. -/
theorem roles_of_enter {line : Line} (h : line.opcode? = some .enter) :
    line.sources = [] ∧ line.destinations = [] := by
  cases line with
  | label name => cases h
  | instr opcode operands =>
    cases h
    exact ⟨rfl, rfl⟩

/-! ## Text -/

/-- A line as it is written: `name:`, or the mnemonic and the operands set off by commas. -/
def text : Line → String
  | label name => name ++ ":"
  | instr opcode [] => opcode.mnemonic
  | instr opcode operands => opcode.mnemonic ++ " " ++ ", ".intercalate (operands.map Operand.text)

/-- A line in a listing: instructions are indented by four blanks. -/
def listed (line : Line) : String :=
  if line.isLabel then line.text ++ "\n" else "    " ++ line.text ++ "\n"

end Line

namespace Code

/-- Replace one register name by another in every line. -/
def rename (old new : String) (code : Code) : Code :=
  code.map (Line.rename old new)

/-- The text of a stream, one line of text for each line of code. -/
def listing (code : Code) : String :=
  String.join (code.map Line.listed)

end Code

end TurtleAlloc
