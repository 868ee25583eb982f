import TurtleAlloc.Allocation
import TurtleAlloc.Interval.Liveness
import TurtleAlloc.LabelTable
import TurtleAlloc.Spill

/-!
# Compilation of a stream

A stream over any number of registers becomes one over the physical registers.  Its live
intervals are allocated, the allocated registers are renamed all at once, and the others are
spilled.  Spill code needs temporary registers: as long as it runs short of them, the highest
register is taken out of the pool and allocation starts again.

* `Options`, `CompileError` — what the caller may choose, and why compilation fails;
* `Code.assign` — the simultaneous renaming, `assign_physical_registers`;
* `Code.compileGroups` — the result of the loop in `compile` as groups, one for each line of the
  input;
* `Code.compile` — the same as code.
-/

namespace TurtleAlloc

/-- What the caller of a compilation may choose. -/
structure Options where
  /-- The number of registers to allocate. -/
  registers : Nat := Register.defaultPool
  /-- Whether a label that is declared twice is an error. -/
  validateLabels : Bool := true
  deriving DecidableEq, Repr

/-- Why a stream cannot be compiled. -/
inductive CompileError where
  /-- A label is declared twice. -/
  | duplicateLabel (name : String)
  /-- There are more registers than a pool can have. -/
  | poolTooLarge
  /-- Spill code needs more temporaries than there are registers. -/
  | insufficientRegisters
  /-- Spill code cannot be written, for another reason. -/
  | spill (cause : SpillError)
  deriving DecidableEq, Repr

namespace CompileError

/-- The wording for a label that is declared twice. -/
def duplicateLabelText (name : String) : String :=
  "label redefines existing symbol: `" ++ name ++ "'"

/-- The wording for a failed allocation. -/
def allocationText (reason : String) : String :=
  "Register allocation failed: " ++ reason

/-- The wording of a failure. -/
def message : CompileError → String
  | duplicateLabel name => duplicateLabelText name
  | poolTooLarge => PoolTooLarge.message
  | insufficientRegisters => allocationText "insufficient physical registers"
  | spill .overflow => SpillError.overflow.message
  | spill cause => allocationText cause.message

/-- Whether a number was too large for the machine, rather than the stream at fault. -/
def exceedsMachine : CompileError → Bool
  | poolTooLarge | spill .overflow => true
  | _ => false

end CompileError

namespace Code

/-- The physical register that a name stands for at a line; the name itself if there is none. -/
def physicalAt (intervals : List Interval) (index : Nat) (name : String) : String :=
  match intervals.find? fun interval => interval.register == name with
  | some interval => if interval.contains index then interval.physical.getD name else name
  | none => name

/-- Replace every allocated register by its physical register, all at once. -/
def assign (intervals : List Interval) (code : Code) : Code :=
  code.zipIdx.map fun (line, index) => line.mapRegisters (physicalAt intervals index)

/-- One attempt: allocate the registers below `pool`, rename, and spill what is left. -/
def attempt (code : Code) (intervals : List Interval) (pool : Nat) (temporaries : List Nat) :
    Attempt SpillError (List Group) := do
  let allocated ← ExceptT.lift (allocate pool intervals)
  Code.spill (allocated.filter Interval.isSpilled) temporaries (code.assign allocated)

/-- Attempts with a shrinking pool: each register that leaves it becomes a temporary. -/
def compileFrom (code : Code) (intervals : List Interval) (pool : Nat)
    (temporaries : List Nat) : Attempt CompileError (List Group) :=
  ExceptT.mk do
    match ← (attempt code intervals pool temporaries).run with
    | .ok groups => pure (.ok groups)
    | .error .outOfTemporaries =>
      match pool with
      | 0 => pure (.error .insufficientRegisters)
      | number + 1 => do
        Logged.tell [.reserved (Register.physical number) number]
        (compileFrom code intervals number (temporaries ++ [number])).run
    | .error cause => pure (.error (.spill cause))

/-- Compile a stream into groups, one for each of its lines. -/
def compileGroups (options : Options) (code : Code) : Attempt CompileError (List Group) := do
  if options.validateLabels then
    match LabelTable.ofCode code with
    | .ok _ => pure ()
    | .error duplicate => throw (.duplicateLabel duplicate.name)
  let intervals ← ExceptT.lift code.liveness
  if poolLimit ≤ options.registers then throw .poolTooLarge
  compileFrom code intervals options.registers []

/-- Compile a stream. -/
def compile (options : Options) (code : Code) : Attempt CompileError Code := do
  let groups ← compileGroups options code
  pure (ofGroups groups)

end Code

end TurtleAlloc
