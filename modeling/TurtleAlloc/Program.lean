import TurtleAlloc.Compile

/-!
# Programs

A program is a top-level stream and some named subroutines.  Each of these units is compiled on
its own.

* `Subroutine`, `Program`, `Program.units` — the parts of a program;
* `Program.listing` — its text;
* `Program.compile` — `compile_program`, compilation of all its units.
-/

namespace TurtleAlloc

/-- A named stream. -/
structure Subroutine where
  name : String
  code : Code := []
  deriving DecidableEq, Repr

/-- A top-level stream and subroutines. -/
structure Program where
  topLevel : Code := []
  subroutines : List Subroutine := []
  deriving DecidableEq, Repr

namespace Program

/-- The name under which the top-level stream is reported. -/
def topLevelName : String := "<top level>"

/-- The streams of a program with their names, the top level first. -/
def units (program : Program) : List (String × Code) :=
  (topLevelName, program.topLevel) ::
    program.subroutines.map fun subroutine => (subroutine.name, subroutine.code)

/-- The text of a program: the top level, then each subroutine under its name. -/
def listing (program : Program) : String :=
  program.topLevel.listing ++
    String.join (program.subroutines.map fun subroutine =>
      subroutine.name ++ ":\n" ++ subroutine.code.listing)

/-- Compile subroutines one after the other. -/
def compileSubroutines (options : Options) :
    List Subroutine → Attempt CompileError (List Subroutine)
  | [] => pure []
  | subroutine :: later => do
    Attempt.tell (.subroutine subroutine.name)
    let code ← subroutine.code.compile options
    let compiled ← compileSubroutines options later
    pure ({ subroutine with code } :: compiled)

/-- Compile every unit of a program; the first failure ends it. -/
def compile (options : Options) (program : Program) : Attempt CompileError Program := do
  let topLevel ← program.topLevel.compile options
  let subroutines ← compileSubroutines options program.subroutines
  pure { topLevel, subroutines }

end Program

end TurtleAlloc
