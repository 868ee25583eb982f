import TurtleAlloc.Command.Report

/-!
# The command line

Reads the files that a command names, and prints or writes what the command comes to.  The exit
code is 2 for arguments that make no command; other failures have their own (`Failure.exitCode`).
-/

namespace TurtleAlloc

/-- The content of a file, if it can be read. -/
def contentOf (file : String) : IO (Option String) :=
  try
    let text ← IO.FS.readFile file
    pure (some text)
  catch _ => pure none

/-- Print a report and write its file. -/
def deliver (report : Report) : IO UInt32 := do
  match report.written with
  | none =>
    IO.print report.stdout
    pure 0
  | some (file, text) =>
    try
      IO.FS.writeFile file text
      IO.print report.stdout
      pure 0
    catch error =>
      IO.eprintln ("Error: " ++ toString error)
      pure 1

/-- Carry out a command. -/
def perform (command : Command) : IO UInt32 := do
  let mut contents : List (String × String) := []
  for file in command.files do
    if let some text ← contentOf file then
      contents := (file, text) :: contents
  match command.run fun file => contents.lookup file with
  | .ok report => deliver report
  | .error failure =>
    IO.eprint failure.message
    pure failure.exitCode.toUInt32

/-- Carry out the command that some arguments stand for. -/
def performArguments (arguments : List String) : IO UInt32 := do
  match Command.parse? arguments with
  | some command => perform command
  | none =>
    IO.eprintln "usage: blocks INPUT | intervals INPUT [--json] | allocate INPUT [OPTIONS]"
    pure 2

end TurtleAlloc

def main (arguments : List String) : IO UInt32 :=
  TurtleAlloc.performArguments arguments
