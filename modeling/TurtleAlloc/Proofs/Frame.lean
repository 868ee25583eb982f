import Mathlib
import TurtleAlloc.Frame

/-!
# Where slots lie

Slot numbers below `2 ^ 31` are read as they are, so a frame holds a slot exactly if the size that
it grows to has 32 bits (`sizeWithSlots?_eq_some_iff`), it then holds all lower slots too
(`exists_slotOffset?`), and no two slots lie at the same offset (`slotOffset?_inj`).

`Code.move?` reads the code of one movement back, in the short or in the long form: what is moved,
and how far from the frame pointer.  The long form spells the offset in two bytes, which stand for
it modulo `2 ^ 16` (`move?_slotAccess`).
-/

namespace TurtleAlloc.Frame

variable {frame : Frame} {slot : Nat} {size offset : Int32}

theorem sizeWithSlots?_eq_some_iff (hslot : slot < 2 ^ 31) :
    frame.sizeWithSlots? slot = some size ↔ size.toInt = frame.size.toInt + slot + 1 := by
  have hread : (Int32.ofNat slot).toInt = slot := Int32.toInt_ofNat_of_lt hslot
  have hone : (1 : Int32).toInt = 1 := by decide
  unfold sizeWithSlots?
  rw [Option.bind_eq_bind, Option.bind_eq_some_iff]
  simp only [addChecked_eq_some_iff, hread, hone]
  constructor
  · rintro ⟨below, hbelow, hsize⟩
    rw [hsize, hbelow]
  · intro h
    have hlower := frame.size.le_toInt
    have hupper := size.toInt_lt
    refine ⟨Int32.ofInt (frame.size.toInt + slot), ?_, ?_⟩
    · exact Int32.toInt_ofInt_of_le (by omega) (by omega)
    · rw [Int32.toInt_ofInt_of_le (by omega) (by omega), h]

theorem exists_slotOffset? {last : Nat} (hlast : last < 2 ^ 31)
    (h : frame.sizeWithSlots? last = some size) (hslot : slot ≤ last) :
    ∃ offset, frame.slotOffset? slot = some offset := by
  rw [sizeWithSlots?_eq_some_iff hlast] at h
  have hlower := frame.size.le_toInt
  have hupper := size.toInt_lt
  have hsize : frame.sizeWithSlots? slot = some (Int32.ofInt (frame.size.toInt + slot + 1)) := by
    rw [sizeWithSlots?_eq_some_iff (by omega), Int32.toInt_ofInt_of_le (by omega) (by omega)]
  exact ⟨_, by rw [slotOffset?, hsize, Option.map_some]⟩

theorem slotOffset?_inj {other : Nat} (hslot : slot < 2 ^ 31) (hother : other < 2 ^ 31)
    (h : frame.slotOffset? slot = some offset) (h' : frame.slotOffset? other = some offset) :
    slot = other := by
  obtain ⟨size, hsize, heq⟩ := Option.map_eq_some_iff.mp h
  obtain ⟨size', hsize', heq'⟩ := Option.map_eq_some_iff.mp h'
  have hsame : size = size' := Int32.neg_inj.mp (heq.trans heq'.symm)
  rw [sizeWithSlots?_eq_some_iff hslot] at hsize
  rw [sizeWithSlots?_eq_some_iff hother, ← hsame, hsize] at hsize'
  omega

/-- The offset of a slot: slots lie downwards, behind the words that the program asked for. -/
theorem toInt_slotOffset? (hslot : slot < 2 ^ 31) (h : frame.slotOffset? slot = some offset) :
    offset.toInt = -(frame.size.toInt + slot + 1) := by
  obtain ⟨size, hsize, rfl⟩ := Option.map_eq_some_iff.mp h
  rw [sizeWithSlots?_eq_some_iff hslot] at hsize
  have hlower := frame.size.le_toInt
  have hupper := size.toInt_lt
  rw [Int32.toInt_neg, ← hsize]
  exact Int.bmod_eq_of_le (by omega) (by omega)

end TurtleAlloc.Frame

namespace TurtleAlloc

/-! ## Reading a movement back -/

/-- A movement between a register and the frame. -/
structure Move where
  /-- `LOAD` or `STORE`. -/
  opcode : Opcode
  register : String
  /-- Where the word lies from the frame pointer. -/
  offset : Int
  deriving DecidableEq, Repr

/-- Whether a number is one byte. -/
def isByte (value : Int32) : Bool := 0 ≤ value.toInt && value.toInt < 256

/-- The signed number of 16 bits with the given bytes. -/
def signedWord (low high : Int32) : Int := (256 * high.toInt + low.toInt).bmod 65536

/-- The movement that some code consists of: a load or store with an offset that fits its field, or
one by way of the return-address register, in which the offset is built from two bytes and added to
the frame pointer. -/
def Code.move? : Code → Option Move
  | [.instr opcode [.register register, .register base, .number offset]] =>
    if base = Register.framePointer ∧ isNear offset then some ⟨opcode, register, offset.toInt⟩
    else none
  | [.instr .li [.register address, .number low], .instr .lui [.register address', .number high],
      .instr .add [.register sum, .register address'', .register base],
      .instr opcode [.register register, .register sum']] =>
    if (∀ name ∈ [address, address', address'', sum, sum'], name = Register.returnAddress) ∧
        base = Register.framePointer ∧ isByte low ∧ isByte high then
      some ⟨opcode, register, signedWord low high⟩
    else none
  | _ => none

theorem toInt_lowByte (offset : Int32) : (offset &&& 0xff).toInt = offset.toInt % 256 := by
  have hbits : (offset &&& 0xff).toBitVec.toNat = offset.toBitVec.toNat % 256 := by
    rw [Int32.toBitVec_and]
    exact Nat.and_two_pow_sub_one_eq_mod _ 8
  have hnat : (offset &&& 0xff).toInt = ((offset &&& 0xff).toBitVec.toNat : Int) := by
    rw [← Int32.toInt_toBitVec, BitVec.toInt_eq_toNat_cond, if_pos (by omega)]
  rw [hnat, hbits, ← Int32.toInt_toBitVec, BitVec.toInt_eq_toNat_cond]
  split <;> omega

theorem toInt_highByte (offset : Int32) :
    ((offset >>> 8) &&& 0xff).toInt = offset.toInt / 256 % 256 := by
  have hshift : (offset >>> 8).toInt = offset.toInt / 256 := by
    rw [← Int32.toInt_toBitVec, Int32.toBitVec_shiftRight]
    show (offset.toBitVec.sshiftRight 8).toInt = _
    rw [BitVec.toInt_sshiftRight, Int.shiftRight_eq_div_pow, Int32.toInt_toBitVec]
    rfl
  rw [toInt_lowByte, hshift]

/-- The two bytes of an offset stand for it modulo `2 ^ 16`. -/
theorem signedWord_bytes (offset : Int32) :
    signedWord (offset &&& 0xff) ((offset >>> 8) &&& 0xff) = offset.toInt.bmod 65536 := by
  have hword : 256 * (offset.toInt / 256 % 256) + offset.toInt % 256 = offset.toInt % 65536 := by
    omega
  rw [signedWord, toInt_highByte, toInt_lowByte, hword]
  exact Int.emod_bmod offset.toInt 65536

/-- **The code that moves a slot is one movement**, to or from the offset modulo `2 ^ 16`. -/
theorem move?_slotAccess (opcode : Opcode) (temporary : String) (offset : Int32) :
    (slotAccess opcode temporary offset).move? =
      some ⟨opcode, temporary, offset.toInt.bmod 65536⟩ := by
  unfold slotAccess
  by_cases hnear : isNear offset = true
  · have hrange : -16 ≤ offset.toInt ∧ offset.toInt ≤ 15 := by
      simpa [isNear] using hnear
    have hsame : offset.toInt.bmod 65536 = offset.toInt :=
      Int.bmod_eq_of_le (by omega) (by omega)
    rw [if_pos hnear, Code.move?, if_pos ⟨rfl, hnear⟩, hsame]
  · have hlow : isByte (offset &&& 0xff) = true := by
      simp only [isByte, toInt_lowByte, Bool.and_eq_true, decide_eq_true_eq]
      omega
    have hhigh : isByte ((offset >>> 8) &&& 0xff) = true := by
      simp only [isByte, toInt_highByte, Bool.and_eq_true, decide_eq_true_eq]
      omega
    rw [if_neg hnear, ← signedWord_bytes]
    exact if_pos ⟨by simp, rfl, hlow, hhigh⟩

end TurtleAlloc
