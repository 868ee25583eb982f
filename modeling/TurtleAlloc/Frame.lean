import TurtleAlloc.Line

/-!
# Stack frames

A frame is opened by `ENTER size` and addressed downwards from the frame pointer.  Spill slots
lie below the `size` words that the program itself asked for.

* `addChecked` — addition of 32-bit numbers that refuses to wrap around;
* `Frame.sizeWithSlots?`, `Frame.slotOffset?` — the size of a frame that holds a slot, and where
  the slot lies from the frame pointer: `size_with_spill_slots` and `spill_offset`, where they do
  not overflow;
* `slotAccess` — `access_spill_slot`, the code that moves one word between a register and a slot,
  in a short form for near slots and in a long form, by way of the return-address register, for
  distant ones.
-/

namespace TurtleAlloc

/-- The sum of two 32-bit numbers, if it is one. -/
def addChecked (a b : Int32) : Option Int32 :=
  let sum := a.toInt + b.toInt
  if Int32.minValue.toInt ≤ sum ∧ sum ≤ Int32.maxValue.toInt then some (Int32.ofInt sum) else none

/-- A checked sum is the sum of the integers, and is there whenever that sum has 32 bits. -/
theorem addChecked_eq_some_iff {a b c : Int32} :
    addChecked a b = some c ↔ c.toInt = a.toInt + b.toInt := by
  simp only [addChecked, Int32.toInt_minValue, Int32.toInt_maxValue]
  constructor
  · intro h
    split at h
    · next range =>
      cases h
      exact Int32.toInt_ofInt_of_le range.1 (by omega)
    · cases h
  · intro h
    have lower := c.le_toInt
    have upper := c.toInt_lt
    rw [← h, if_pos ⟨lower, by omega⟩, Int32.ofInt_toInt]

/-- A stack frame, before any slot is added. -/
structure Frame where
  /-- The number of words that the program asked for. -/
  size : Int32
  deriving DecidableEq, Repr

namespace Frame

/-- The size of the frame once it holds all slots up to the given one; nothing if that exceeds
32 bits.  Of a slot number only the low 32 bits count, read as a signed number. -/
def sizeWithSlots? (frame : Frame) (slot : Nat) : Option Int32 := do
  let below ← addChecked frame.size (Int32.ofNat slot)
  addChecked below 1

/-- The offset of a slot from the frame pointer. -/
def slotOffset? (frame : Frame) (slot : Nat) : Option Int32 :=
  (frame.sizeWithSlots? slot).map fun size => -size

end Frame

/-- Offsets that fit the immediate field of a load or store. -/
def isNear (offset : Int32) : Bool :=
  -16 ≤ offset.toInt && offset.toInt ≤ 15

/-- The code that moves the word at `offset` from the frame pointer: `opcode` is `LOAD` to bring
it into the register `temporary`, `STORE` to write that register back.  Beyond the immediate
field the address is built in the return-address register, one byte at a time. -/
def slotAccess (opcode : Opcode) (temporary : String) (offset : Int32) : Code :=
  if isNear offset then
    [.instr opcode [.register temporary, .register Register.framePointer, .number offset]]
  else
    let ra := Operand.register Register.returnAddress
    [.instr .li [ra, .number (offset &&& 0xff)],
      .instr .lui [ra, .number ((offset >>> 8) &&& 0xff)],
      .instr .add [ra, ra, .register Register.framePointer],
      .instr opcode [.register temporary, ra]]

/-- The code that loads a slot into a register. -/
def Frame.loadSlot? (frame : Frame) (temporary : String) (slot : Nat) : Option Code :=
  (frame.slotOffset? slot).map (slotAccess .load temporary)

/-- The code that stores a register into a slot. -/
def Frame.storeSlot? (frame : Frame) (temporary : String) (slot : Nat) : Option Code :=
  (frame.slotOffset? slot).map (slotAccess .store temporary)

end TurtleAlloc
