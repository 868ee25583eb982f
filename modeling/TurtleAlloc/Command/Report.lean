import TurtleAlloc.Block
import TurtleAlloc.Command.Arguments
import TurtleAlloc.Format.Interval
import TurtleAlloc.Format.Program
import TurtleAlloc.Json.Printer
import TurtleAlloc.Json.Reader

/-!
# What a command reports

* `Report`, `Failure` — the outcome of a command: what it prints and writes, or why it fails, with
  the wording and the exit code;
* `Program.blocksReport`, `Program.intervalsReport` — the texts of the analyses;
* `Command.files` — the files that a command reads;
* `Command.run` — the outcome of a command, given the contents of those files.
-/

namespace TurtleAlloc

/-- The outcome of a command that succeeds. -/
structure Report where
  /-- What is printed. -/
  stdout : String
  /-- The file that is written, with its content. -/
  written : Option (String × String) := none
  deriving DecidableEq, Repr

/-- Why a command fails. -/
inductive Failure where
  /-- A file cannot be read, or does not hold what it should. -/
  | badInput (file : String)
  /-- The program cannot be compiled. -/
  | uncompilable (cause : CompileError)
  deriving DecidableEq, Repr

/-- The wording of a failure. -/
def Failure.message : Failure → String
  | badInput file => "Error: cannot read " ++ file ++ "\n"
  | uncompilable cause => "Error: " ++ cause.message ++ "\n"

/-- The exit code of a failure: 101 for a number that is too large for the machine, else 1. -/
def Failure.exitCode : Failure → Nat
  | badInput _ => 1
  | uncompilable cause => if cause.exceedsMachine then 101 else 1

/-! ## Analyses -/

/-- A line without the carriage return at its end. -/
def dropReturn (chars : List Char) : List Char :=
  if chars.getLast? = some '\r' then chars.dropLast else chars

/-- The lines of a text in which every line is ended, without their line breaks. -/
def textLines (text : String) : List String :=
  ((text.toList.splitOn '\n').dropLast).map fun chars => String.ofList (dropReturn chars)

/-- A unit under its name, and the lines of its report indented by two blanks. -/
def unitReport (name : String) (lines : List String) : String :=
  name ++ ":\n" ++ String.join (lines.map fun line => "  " ++ line ++ "\n")

namespace Program

/-- The blocks of every unit: a heading with the number of the block and its range, then its
lines. -/
def blocksReport (program : Program) : String :=
  String.join (program.units.map fun (name, code) =>
    unitReport name (code.blocks.zipIdx.flatMap fun (block, number) =>
      ("block " ++ number.repr ++ " [" ++ block.start.repr ++ ", " ++ block.stop.repr ++ ")") ::
        textLines block.code.listing))

/-- The live intervals of every unit. -/
def intervalsReport (program : Program) : String :=
  String.join (program.units.map fun (name, code) =>
    unitReport name (code.liveIntervals.map Interval.text))

/-- The live intervals of every unit in JSON. -/
def intervalsJson (program : Program) : Json :=
  .arr (program.units.map fun (name, code) =>
    .object [
      ("unit", .text name),
      ("intervals", .arr (code.liveIntervals.map Interval.toJson))])

end Program

/-! ## Commands -/

/-- The value that a file holds. -/
def decodeFile {α : Type} (contents : String → Option String) (ofJson? : Json → Option α)
    (file : String) : Except Failure α :=
  match ((contents file).bind Json.parse?).bind ofJson? with
  | some value => .ok value
  | none => .error (.badInput file)

/-- The options of an allocation: those of the configuration, with the number of registers
overridden by the command line. -/
def AllocateCommand.options (command : AllocateCommand) (contents : String → Option String) :
    Except Failure Options := do
  let options ← match command.config with
    | some file => decodeFile contents Options.ofJson? file
    | none => .ok {}
  pure { options with registers := command.registers.getD options.registers }

/-- The outcome of an allocation. -/
def AllocateCommand.run (command : AllocateCommand) (contents : String → Option String) :
    Except Failure Report := do
  let program ← decodeFile contents Program.ofJson? command.input
  let options ← command.options contents
  match (program.compile options).result with
  | .error cause => .error (.uncompilable cause)
  | .ok compiled =>
    let text := if command.json then compiled.toJson.pretty ++ "\n" else compiled.listing
    match command.output with
    | some file => .ok ⟨"Assembly written to: " ++ file ++ "\n", some (file, text)⟩
    | none => .ok ⟨text, none⟩

namespace Command

/-- The files that a command reads. -/
def files : Command → List String
  | version => []
  | blocks input => [input]
  | intervals input _ => [input]
  | allocate command => command.input :: command.config.toList

/-- The outcome of a command, given the contents of files. -/
def run (command : Command) (contents : String → Option String) : Except Failure Report :=
  match command with
  | version => .ok ⟨"snapc 0.1.0\n", none⟩
  | blocks input => do
    let program ← decodeFile contents Program.ofJson? input
    pure ⟨program.blocksReport, none⟩
  | intervals input json => do
    let program ← decodeFile contents Program.ofJson? input
    pure ⟨if json then program.intervalsJson.pretty ++ "\n" else program.intervalsReport, none⟩
  | allocate command => command.run contents

end Command

end TurtleAlloc
