import TurtleAlloc.Frame
import TurtleAlloc.Interval
import TurtleAlloc.Log

/-!
# Spill code

A spilled register lives in a slot of the frame.  Each line that reads it loads the slot into a
temporary register first, each line that writes it stores the temporary afterwards, and the line
itself names the temporary instead.

* `Access`, `Group` — one movement between a slot and a temporary; a line with the loads in front
  of it and the stores behind it;
* `SpillError` — why spill code cannot be written;
* `Draft` — a group while the spilled registers of its line are treated one after the other;
* `Line.spill` — the group of one line, `spill_instruction`;
* `Code.spill` — the groups of a stream, one for each of its lines, in order: `spill`, with the
  frame that `grow_frame` makes;
* `Code.ofGroups` — the groups laid out as code.

The stream has to open with `ENTER`, which is made larger by the slots.
-/

namespace TurtleAlloc

/-- Why spill code cannot be written. -/
inductive SpillError where
  /-- The stream does not open with `ENTER`, so it has no frame for slots. -/
  | missingLeadingEnter
  /-- A spilled interval has no slot. -/
  | missingSpillSlot
  /-- A line needs more temporary registers than there are. -/
  | outOfTemporaries
  /-- A frame size or an offset exceeds 32 bits. -/
  | overflow
  deriving DecidableEq, Repr

/-- The wording of a failure. -/
def SpillError.message : SpillError → String
  | missingLeadingEnter => "missing leading enter"
  | missingSpillSlot => "missing spill slot"
  | outOfTemporaries => "out of temporaries"
  | overflow => "attempt to add with overflow"

/-- One movement of a spilled register between its slot and a temporary. -/
structure Access where
  /-- The spilled register. -/
  register : String
  slot : Nat
  /-- The number of the temporary register. -/
  temporary : Nat
  /-- Where the slot lies from the frame pointer. -/
  offset : Int32
  deriving DecidableEq, Repr

namespace Access

/-- The name of the temporary register. -/
def temporaryName (access : Access) : String := Register.physical access.temporary

/-- The code that brings the slot into the temporary. -/
def load (access : Access) : Code := slotAccess .load access.temporaryName access.offset

/-- The code that writes the temporary back to the slot. -/
def store (access : Access) : Code := slotAccess .store access.temporaryName access.offset

end Access

/-- A line with the spill code around it. -/
structure Group where
  /-- The loads in front of the line. -/
  loads : List Access
  line : Line
  /-- The stores behind the line. -/
  stores : List Access
  deriving DecidableEq, Repr

namespace Group

/-- A line that needs no spill code. -/
def ofLine (line : Line) : Group := ⟨[], line, []⟩

/-- A group laid out as code. -/
def code (group : Group) : Code :=
  group.loads.flatMap Access.load ++ group.line :: group.stores.flatMap Access.store

@[simp] theorem code_ofLine (line : Line) : (ofLine line).code = [line] := rfl

end Group

/-- Groups laid out as code, one behind the other. -/
def Code.ofGroups (groups : List Group) : Code :=
  groups.flatMap Group.code

/-! ## One line -/

/-- A group in the making, and the temporaries that no load of it uses yet. -/
structure Draft where
  group : Group
  unused : List Nat
  deriving DecidableEq, Repr

/-- The access to a slot of a frame through a temporary. -/
def Frame.reach (frame : Frame) (register : String) (slot temporary : Nat) :
    Attempt SpillError Access :=
  match frame.slotOffset? slot with
  | some offset => pure ⟨register, slot, temporary, offset⟩
  | none => throw .overflow

namespace Draft

/-- A line before any of its registers is treated. -/
def ofLine (temporaries : List Nat) (line : Line) : Draft := ⟨.ofLine line, temporaries⟩

/-- Load a register in front of the line, behind the earlier loads, into the next unused
temporary. -/
def load (frame : Frame) (index : Nat) (register : String) (slot : Nat) (draft : Draft) :
    Attempt SpillError Draft :=
  match draft.unused with
  | [] => throw .outOfTemporaries
  | temporary :: unused => do
    Attempt.tell (.slotLoaded index register slot (Register.physical temporary))
    let access ← frame.reach register slot temporary
    pure {
      group := {
        loads := draft.group.loads ++ [access]
        line := draft.group.line.rename register access.temporaryName
        stores := draft.group.stores }
      unused }

/-- Store a register behind the line, in front of the earlier stores, from the first of some
temporaries. -/
def store (frame : Frame) (index : Nat) (register : String) (slot : Nat)
    (temporaries : List Nat) (draft : Draft) : Attempt SpillError Draft :=
  match temporaries with
  | [] => throw .outOfTemporaries
  | temporary :: _ => do
    Attempt.tell (.slotStored index register slot (Register.physical temporary))
    let access ← frame.reach register slot temporary
    pure { draft with
      group := {
        loads := draft.group.loads
        line := draft.group.line.rename register access.temporaryName
        stores := access :: draft.group.stores } }

/-- Treat one spilled register.  A register that the line both reads and writes uses one temporary
for both; one that is only written uses the first temporary of all. -/
def spill (frame : Frame) (temporaries : List Nat) (index : Nat) (draft : Draft)
    (interval : Interval) : Attempt SpillError Draft :=
  match interval.slot with
  | none => throw .missingSpillSlot
  | some slot => do
    let reads := draft.group.line.sources.contains interval.register
    let writes := draft.group.line.destinations.contains interval.register
    let loaded ← if reads then draft.load frame index interval.register slot else pure draft
    if writes then
      loaded.store frame index interval.register slot (if reads then draft.unused else temporaries)
    else
      pure loaded

end Draft

/-- The group of a line: the spilled registers whose intervals contain it are treated in turn. -/
def Line.spill (frame : Frame) (spilled : List Interval) (temporaries : List Nat) (index : Nat)
    (line : Line) : Attempt SpillError Group := do
  let draft ← (spilled.filter fun interval => interval.contains index).foldlM
    (Draft.spill frame temporaries index) (.ofLine temporaries line)
  pure draft.group

/-! ## A stream -/

namespace Code

/-- The groups of the lines from a position on. -/
def spillFrom (frame : Frame) (spilled : List Interval) (temporaries : List Nat) (index : Nat) :
    Code → Attempt SpillError (List Group)
  | [] => pure []
  | line :: rest => do
    let group ← line.spill frame spilled temporaries index
    let groups ← spillFrom frame spilled temporaries (index + 1) rest
    pure (group :: groups)

/-- The frame that `ENTER` opens with some operands: its size is the first operand, or zero if
that is no number. -/
def enteredFrame : List Operand → Frame
  | .number size :: _ => ⟨size⟩
  | _ => ⟨0⟩

/-- The highest slot among spilled intervals. -/
def lastSlot (spilled : List Interval) : Nat :=
  (spilled.filterMap Interval.slot).foldl max 0

/-- Keep the registers of some intervals in their slots, by means of some temporary registers.
Without spilled intervals a stream stays as it is. -/
def spill (spilled : List Interval) (temporaries : List Nat) (code : Code) :
    Attempt SpillError (List Group) :=
  if spilled.isEmpty then pure (code.map Group.ofLine)
  else
    match code with
    | .instr .enter operands :: rest =>
      let frame := enteredFrame operands
      match frame.sizeWithSlots? (lastSlot spilled) with
      | none => throw .overflow
      | some size => do
        Attempt.tell (.frameGrown spilled.length frame.size size)
        spillFrom frame spilled temporaries 0 (.instr .enter [.number size] :: rest)
    | _ => throw .missingLeadingEnter

end Code

end TurtleAlloc
