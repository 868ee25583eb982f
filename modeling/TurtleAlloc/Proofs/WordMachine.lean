import Mathlib
import TurtleAlloc.Proofs.Frame

/-!
# A machine of 16-bit words

The instructions that spill code consists of, with the meaning that the long form of a slot access
relies on: `LI` sets a register from a byte, and `LUI` replaces the upper byte of a register and
keeps the lower one.

* `Word`, `Word.low`, `Word.high` — words and their bytes;
* `WordState`, `WordState.execute`, `WordState.run` — registers and memory, and what code does to
  them;
* `WordState.cell` — the word at an offset from the frame pointer;
* `WordState.keep`, `WordState.run_store` — a word in a register and in a near slot, and the code
  that brings it there.
-/

namespace TurtleAlloc

/-- What a register holds. -/
abbrev Word := BitVec 16

/-- Half a word. -/
abbrev Byte := BitVec 8

namespace Word

/-- The lower byte of a word. -/
def low (word : Word) : Byte := word.extractLsb' 0 8

/-- The upper byte of a word. -/
def high (word : Word) : Byte := word.extractLsb' 8 8

/-- The word with the given bytes. -/
def ofBytes (high low : Byte) : Word := high ++ low

@[simp] theorem low_ofBytes (high low : Byte) : (ofBytes high low).low = low :=
  BitVec.extractLsb'_append_eq_right

@[simp] theorem high_ofBytes (high low : Byte) : (ofBytes high low).high = high :=
  BitVec.extractLsb'_append_eq_left

theorem ofBytes_high_low (word : Word) : ofBytes word.high word.low = word := by
  have hbytes : word.extractLsb' 8 8 ++ word.extractLsb' 0 8 = word.extractLsb' 0 (8 + 8) :=
    BitVec.extractLsb'_append_extractLsb'_eq_extractLsb' rfl
  exact hbytes.trans BitVec.extractLsb'_eq_self

theorem ext_bytes {a b : Word} (hhigh : a.high = b.high) (hlow : a.low = b.low) : a = b := by
  rw [← ofBytes_high_low a, ← ofBytes_high_low b, hhigh, hlow]

/-- A number as a word. -/
def ofNumber (value : Int32) : Word := BitVec.ofInt 16 value.toInt

theorem ofNumber_eq_iff {a b : Int32} :
    ofNumber a = ofNumber b ↔ a.toInt % 65536 = b.toInt % 65536 := by
  rw [ofNumber, ofNumber, ← BitVec.toNat_inj, BitVec.toNat_ofInt, BitVec.toNat_ofInt]
  omega

end Word

/-- A number as a byte. -/
def Byte.ofNumber (value : Int32) : Byte := BitVec.ofInt 8 value.toInt

/-- Registers by name, and memory by address. -/
structure WordState where
  registers : String → Word
  memory : Word → Word

namespace WordState

variable (state : WordState)

/-- The state with another word in a register. -/
def set (name : String) (word : Word) : WordState :=
  { state with registers := Function.update state.registers name word }

/-- The state with another word at an address. -/
def write (address word : Word) : WordState :=
  { state with memory := Function.update state.memory address word }

/-- What one line does; nothing if it is none of these instructions.  `fill` is what `LI` puts into
the upper byte.  The frame is open already when `ENTER` is met. -/
def execute (fill : Byte → Byte) : Line → Option WordState
  | .instr .enter _ => some state
  | .instr .li [.register target, .number value] =>
    some (state.set target (.ofBytes (fill (.ofNumber value)) (.ofNumber value)))
  | .instr .lui [.register target, .number value] =>
    some (state.set target (.ofBytes (.ofNumber value) (state.registers target).low))
  | .instr .add [.register target, .register a, .register b] =>
    some (state.set target (state.registers a + state.registers b))
  | .instr .load [.register target, .register base] =>
    some (state.set target (state.memory (state.registers base)))
  | .instr .load [.register target, .register base, .number offset] =>
    some (state.set target (state.memory (state.registers base + .ofNumber offset)))
  | .instr .store [.register source, .register base] =>
    some (state.write (state.registers base) (state.registers source))
  | .instr .store [.register source, .register base, .number offset] =>
    some (state.write (state.registers base + .ofNumber offset) (state.registers source))
  | _ => none

/-- What some code does. -/
def run (fill : Byte → Byte) (code : Code) (state : WordState) : Option WordState :=
  code.foldlM (fun state line => state.execute fill line) state

/-- The word that lies at an offset from the frame pointer. -/
def cell (offset : Int32) : Word :=
  state.memory (state.registers Register.framePointer + .ofNumber offset)

/-- The state with another word in a register and at an offset from the frame pointer. -/
def keep (name : String) (offset : Int32) (word : Word) : WordState where
  registers := Function.update state.registers name word
  memory := Function.update state.memory
    (state.registers Register.framePointer + .ofNumber offset) word

variable {state} {fill : Byte → Byte}

theorem run_cons (line : Line) (rest : Code) :
    run fill (line :: rest) state = (state.execute fill line).bind (run fill rest) :=
  List.foldlM_cons

theorem run_append (front rest : Code) :
    run fill (front ++ rest) state = (run fill front state).bind (run fill rest) :=
  List.foldlM_append

/-- Near slots with different offsets are different words. -/
theorem address_ne {offset other : Int32} (hnear : isNear offset = true)
    (hother : isNear other = true) (hne : offset ≠ other) (base : Word) :
    base + .ofNumber offset ≠ base + .ofNumber other := by
  intro heq
  have hword : Word.ofNumber offset = Word.ofNumber other := (BitVec.add_right_inj base).mp heq
  rw [Word.ofNumber_eq_iff] at hword
  simp only [isNear, Bool.and_eq_true, decide_eq_true_eq] at hnear hother
  have hint : offset.toInt = other.toInt := by omega
  exact hne (Int32.toInt_inj.mp hint)

section Keep

variable {name : String} {offset : Int32} {word : Word}

@[simp] theorem registers_set_self : (state.set name word).registers name = word :=
  Function.update_self ..

theorem registers_set_of_ne {other : String} (hne : other ≠ name) :
    (state.set name word).registers other = state.registers other :=
  Function.update_of_ne hne ..

@[simp] theorem registers_keep (state : WordState) (name : String) (offset : Int32) (word : Word) :
    (state.keep name offset word).registers = (state.set name word).registers := rfl

/-- A store to a near slot keeps a word that was just put into a register. -/
theorem run_store (hname : name ≠ Register.framePointer) (hnear : isNear offset = true) :
    run fill (slotAccess .store name offset) (state.set name word) =
      some (state.keep name offset word) := by
  rw [slotAccess, if_pos hnear]
  show some ((state.set name word).write _ _) = _
  rw [registers_set_of_ne hname.symm, registers_set_self]
  rfl

theorem cell_keep_self (hname : name ≠ Register.framePointer) :
    (state.keep name offset word).cell offset = word := by
  rw [cell, registers_keep, registers_set_of_ne hname.symm]
  exact Function.update_self ..

theorem cell_keep_of_ne (hname : name ≠ Register.framePointer) (hnear : isNear offset = true)
    {other : Int32} (hother : isNear other = true) (hne : other ≠ offset) :
    (state.keep name offset word).cell other = state.cell other := by
  rw [cell, registers_keep, registers_set_of_ne hname.symm]
  exact Function.update_of_ne (address_ne hother hnear hne _) ..

end Keep

end WordState

end TurtleAlloc
