import Mathlib
import TurtleAlloc.Proofs.WordMachine

/-!
# Slots in memory

What the code that moves a slot does to a machine of 16-bit words, in its short and in its long
form.

* `Word.displace` — the address at an offset; slots of one frame lie at one address exactly if their
  numbers are equal modulo `2 ^ 16` (`Frame.displace_slotOffset?_iff`).
* `Transfer`, `WordState.transfers` — the accesses to memory that some code makes.  They explain
  what becomes of memory (`memory_run`).
* `Opcode.field`, `Line.FitsFields` — the numbers that an instruction has room for.
* `slotAccess_eq` — the code of a movement: first its address is made ready, then one line moves the
  word.
* `slotAccess_transfers` — one access, at the address of the slot, and nothing else changes.
-/

namespace TurtleAlloc

/-! ## Addresses -/

namespace Word

/-- The address at an offset from a base. -/
def displace (base : Word) (offset : Int32) : Word := BitVec.ofInt 16 (base.toNat + offset.toInt)

theorem displace_eq_add (base : Word) (offset : Int32) :
    base.displace offset = base + .ofNumber offset := by
  rw [displace, BitVec.ofInt_add, BitVec.ofInt_natCast, BitVec.ofNat_toNat, BitVec.setWidth_eq,
    ofNumber]

theorem displace_inj_iff {base : Word} {a b : Int32} :
    base.displace a = base.displace b ↔ a.toInt % 65536 = b.toInt % 65536 := by
  rw [displace_eq_add, displace_eq_add, BitVec.add_right_inj, ofNumber_eq_iff]

/-- The two bytes of a number make up the word of that number. -/
theorem ofBytes_ofNumber (value : Int32) :
    ofBytes (.ofNumber ((value >>> 8) &&& 0xff)) (.ofNumber (value &&& 0xff)) = ofNumber value := by
  have hlow : (Byte.ofNumber (value &&& 0xff)).toNat = (value.toInt % 256).toNat := by
    rw [Byte.ofNumber, BitVec.toNat_ofInt, toInt_lowByte]
    omega
  have hhigh : (Byte.ofNumber ((value >>> 8) &&& 0xff)).toNat =
      (value.toInt / 256 % 256).toNat := by
    rw [Byte.ofNumber, BitVec.toNat_ofInt, toInt_highByte]
    omega
  apply BitVec.eq_of_toNat_eq
  rw [ofBytes, BitVec.toNat_append, hlow, hhigh, ofNumber, BitVec.toNat_ofInt,
    ← Nat.shiftLeft_add_eq_or_of_lt (by omega), Nat.shiftLeft_eq]
  omega

end Word

/-- Slots lie at the same address exactly if their numbers differ by a multiple of `2 ^ 16`. -/
theorem Frame.displace_slotOffset?_iff {frame : Frame} {slot other : Nat} {offset offset' : Int32}
    (hslot : slot < 2 ^ 31) (hother : other < 2 ^ 31)
    (hoffset : frame.slotOffset? slot = some offset)
    (hoffset' : frame.slotOffset? other = some offset') (base : Word) :
    base.displace offset' = base.displace offset ↔ other ≡ slot [MOD 65536] := by
  rw [Word.displace_inj_iff, toInt_slotOffset? hslot hoffset, toInt_slotOffset? hother hoffset',
    Nat.ModEq]
  omega

/-! ## Accesses to memory -/

/-- One access to memory. -/
structure Transfer where
  /-- `LOAD` or `STORE`. -/
  opcode : Opcode
  /-- Where the word is brought to or taken from. -/
  register : String
  address : Word
  word : Word
  deriving DecidableEq

namespace Transfer

variable (transfer : Transfer)

/-- What memory is after an access. -/
def leave (memory : Word → Word) : Word → Word :=
  if transfer.opcode = .store then Function.update memory transfer.address transfer.word else memory

/-- The state after an access. -/
def complete (state : WordState) : WordState where
  registers :=
    if transfer.opcode = .store then state.registers
    else Function.update state.registers transfer.register transfer.word
  memory := transfer.leave state.memory

end Transfer

namespace WordState

variable (state : WordState)

/-- The access to memory that a line makes. -/
def transfer? : Line → Option Transfer
  | .instr .load [.register target, .register base] =>
    some ⟨.load, target, state.registers base, state.memory (state.registers base)⟩
  | .instr .load [.register target, .register base, .number offset] =>
    let address := state.registers base + .ofNumber offset
    some ⟨.load, target, address, state.memory address⟩
  | .instr .store [.register source, .register base] =>
    some ⟨.store, source, state.registers base, state.registers source⟩
  | .instr .store [.register source, .register base, .number offset] =>
    some ⟨.store, source, state.registers base + .ofNumber offset, state.registers source⟩
  | _ => none

/-- The accesses to memory that some code makes, in order. -/
def transfers (fill : Byte → Byte) : Code → WordState → List Transfer
  | [], _ => []
  | line :: rest, state =>
    (state.transfer? line).toList ++ (state.execute fill line).elim [] (transfers fill rest)

variable {state} {fill : Byte → Byte} {line : Line} {code front : Code} {transfer : Transfer}
  {middle final : WordState}

theorem execute_of_transfer? (h : state.transfer? line = some transfer) :
    state.execute fill line = some (transfer.complete state) := by
  unfold transfer? at h
  split at h <;> cases h <;> rfl

/-- A line that makes no access does not depend on memory and does not change it. -/
theorem execute_of_transfer?_eq_none (h : state.transfer? line = none) (memory : Word → Word) :
    execute { state with memory := memory } fill line =
      (state.execute fill line).map fun next => { next with memory := memory } := by
  unfold execute
  split
  -- the two forms of `LOAD` and of `STORE` do make an access
  case h_5 | h_6 | h_7 | h_8 => cases h
  all_goals rfl

theorem memory_execute (h : state.execute fill line = some middle) :
    middle.memory = (state.transfer? line).toList.foldl (fun m t => t.leave m) state.memory := by
  cases htransfer : state.transfer? line with
  | none =>
    have hsame : state.execute fill line =
        (state.execute fill line).map fun next => { next with memory := state.memory } :=
      execute_of_transfer?_eq_none htransfer state.memory
    rw [h, Option.map_some] at hsame
    show middle.memory = state.memory
    rw [Option.some.inj hsame]
  | some transfer =>
    rw [execute_of_transfer? htransfer] at h
    cases h
    rfl

/-- **The accesses of some code explain what becomes of memory.** -/
theorem memory_run (h : run fill code state = some final) :
    final.memory = (transfers fill code state).foldl (fun m t => t.leave m) state.memory := by
  induction code generalizing state with
  | nil =>
    cases h
    rfl
  | cons line rest ih =>
    rw [run_cons, Option.bind_eq_some_iff] at h
    obtain ⟨next, hnext, hrest⟩ := h
    rw [ih hrest, memory_execute hnext, transfers, hnext, Option.elim_some, List.foldl_append]

theorem transfers_append (h : run fill front state = some middle) (rest : Code) :
    transfers fill (front ++ rest) state =
      transfers fill front state ++ transfers fill rest middle := by
  induction front generalizing state with
  | nil =>
    cases h
    rfl
  | cons line front ih =>
    rw [run_cons, Option.bind_eq_some_iff] at h
    obtain ⟨next, hnext, hfront⟩ := h
    rw [List.cons_append, transfers, transfers, hnext, Option.elim_some, Option.elim_some,
      ih hfront, List.append_assoc]

/-- Code whose last line alone accesses memory. -/
theorem run_concat (hfront : run fill front state = some middle)
    (hnone : transfers fill front state = []) (h : middle.transfer? line = some transfer) :
    run fill (front ++ [line]) state = some (transfer.complete middle) ∧
      transfers fill (front ++ [line]) state = [transfer] := by
  constructor
  · rw [run_append, hfront, Option.bind_some, run_cons, execute_of_transfer? h]
    rfl
  · rw [transfers_append hfront, hnone, transfers, h, execute_of_transfer? h]
    rfl

end WordState

/-! ## Fields -/

/-- The numbers that an instruction of a movement has room for: a byte in `LI` and `LUI`, five
signed bits in `LOAD` and `STORE`. -/
def Opcode.field : Opcode → Set Int
  | .li => Set.Icc 0 255
  | .lui => Set.Icc 0 255
  | .load => Set.Icc (-16) 15
  | .store => Set.Icc (-16) 15
  | _ => ∅

/-- Every number of a line fits its field. -/
def Line.FitsFields (line : Line) : Prop :=
  ∀ opcode ∈ line.opcode?, ∀ value, .number value ∈ line.operands → value.toInt ∈ opcode.field

/-! ## The code of a movement -/

theorem isNear_iff {offset : Int32} : isNear offset = true ↔ offset.toInt ∈ Set.Icc (-16) 15 := by
  simp [isNear]

/-- The code that makes the address of a slot ready: none if the offset fits the field of the line
that moves the word. -/
def addressing (offset : Int32) : Code :=
  if isNear offset then []
  else
    let ra := Operand.register Register.returnAddress
    [.instr .li [ra, .number (offset &&& 0xff)],
      .instr .lui [ra, .number ((offset >>> 8) &&& 0xff)],
      .instr .add [ra, ra, .register Register.framePointer]]

/-- The operands by which the line that moves the word then finds it. -/
def addressed (offset : Int32) : List Operand :=
  if isNear offset then [.register Register.framePointer, .number offset]
  else [.register Register.returnAddress]

theorem slotAccess_eq (opcode : Opcode) (temporary : String) (offset : Int32) :
    slotAccess opcode temporary offset =
      addressing offset ++ [.instr opcode (.register temporary :: addressed offset)] := by
  unfold slotAccess addressing addressed
  split <;> rfl

theorem fitsFields_slotAccess {opcode : Opcode} (hopcode : opcode = .load ∨ opcode = .store)
    (temporary : String) (offset : Int32) :
    ∀ line ∈ slotAccess opcode temporary offset, line.FitsFields := by
  have hfield : opcode.field = Set.Icc (-16) 15 := by
    rcases hopcode with rfl | rfl <;> rfl
  unfold slotAccess
  split
  · rename_i hnear
    simp [Line.FitsFields, Line.opcode?, Line.operands, hfield, isNear_iff.mp hnear]
  · have hlow : (offset &&& 0xff).toInt ∈ Set.Icc 0 255 := by
      rw [toInt_lowByte, Set.mem_Icc]
      omega
    have hhigh : ((offset >>> 8) &&& 0xff).toInt ∈ Set.Icc (0 : Int) 255 := by
      rw [toInt_highByte, Set.mem_Icc]
      omega
    rw [Set.mem_Icc] at hlow hhigh
    simp [Line.FitsFields, Line.opcode?, Line.operands, Opcode.field, hlow, hhigh]

namespace WordState

variable {state : WordState} {offset : Int32} {name : String}

theorem set_set (state : WordState) (name : String) (first second : Word) :
    (state.set name first).set name second = state.set name second := by
  simp [set]

/-- The state in which the address of a slot is ready. -/
def aim (offset : Int32) (state : WordState) : WordState :=
  if isNear offset then state
  else state.set Register.returnAddress ((state.registers Register.framePointer).displace offset)

theorem registers_aim (hname : name = Register.returnAddress → offset.toInt ∈ Set.Icc (-16) 15) :
    (state.aim offset).registers name = state.registers name := by
  unfold aim
  split
  · rfl
  · rename_i hfar
    exact registers_set_of_ne fun heq => hfar (isNear_iff.mpr (hname heq))

theorem run_addressing (fill : Byte → Byte) (offset : Int32) (state : WordState) :
    run fill (addressing offset) state = some (state.aim offset) ∧
      transfers fill (addressing offset) state = [] := by
  unfold addressing aim
  split
  · exact ⟨rfl, rfl⟩
  · refine ⟨?_, rfl⟩
    simp only [run, List.foldlM_cons, List.foldlM_nil, execute, Option.bind_eq_bind,
      Option.bind_some, registers_set_self, set_set, Word.low_ofBytes, Word.ofBytes_ofNumber]
    rw [registers_set_of_ne (by decide), Word.displace_eq_add, BitVec.add_comm]
    rfl

theorem transfer?_load (name : String) (offset : Int32) (state : WordState) :
    (state.aim offset).transfer? (.instr .load (.register name :: addressed offset)) =
      some ⟨.load, name, (state.registers Register.framePointer).displace offset,
        state.memory ((state.registers Register.framePointer).displace offset)⟩ := by
  unfold aim addressed
  split
  · rw [Word.displace_eq_add]
    rfl
  · simp only [transfer?, registers_set_self]
    rfl

theorem transfer?_store (hname : name ≠ Register.returnAddress) (offset : Int32)
    (state : WordState) :
    (state.aim offset).transfer? (.instr .store (.register name :: addressed offset)) =
      some ⟨.store, name, (state.registers Register.framePointer).displace offset,
        state.registers name⟩ := by
  unfold aim addressed
  split
  · rw [Word.displace_eq_add]
    rfl
  · simp [transfer?, registers_set_of_ne hname]

end WordState

open WordState in
/-- **A slot is reached in one access, at its own address.**  Whatever the size of the frame, both
the code that loads a slot and the code that stores one access memory once, at the frame pointer
plus the offset modulo `2 ^ 16`, and move the word of the register.  All numbers fit their fields.
No other register changes but the return address, and that one only if the offset has no room in
the line itself.  So two slots share their address exactly if their numbers are equal modulo
`2 ^ 16`. -/
theorem slotAccess_transfers (frame : Frame) {slot : Nat} {offset : Int32}
    (hoffset : frame.slotOffset? slot = some offset) {name : String}
    (hname : name ≠ Register.returnAddress) (fill : Byte → Byte) (state : WordState) :
    let address := (state.registers Register.framePointer).displace offset
    (∃ code final, frame.loadSlot? name slot = some code ∧ (∀ line ∈ code, line.FitsFields) ∧
      run fill code state = some final ∧
      transfers fill code state = [⟨.load, name, address, state.memory address⟩] ∧
      final.memory = state.memory ∧ final.registers name = state.memory address ∧
      ∀ other, other ≠ name → (other = Register.returnAddress → offset.toInt ∈ Set.Icc (-16) 15) →
        final.registers other = state.registers other) ∧
    (∃ code final, frame.storeSlot? name slot = some code ∧ (∀ line ∈ code, line.FitsFields) ∧
      run fill code state = some final ∧
      transfers fill code state = [⟨.store, name, address, state.registers name⟩] ∧
      final.memory = Function.update state.memory address (state.registers name) ∧
      ∀ other, (other = Register.returnAddress → offset.toInt ∈ Set.Icc (-16) 15) →
        final.registers other = state.registers other) ∧
    (slot < 2 ^ 31 → ∀ other < 2 ^ 31, ∀ offset', frame.slotOffset? other = some offset' →
      ((state.registers Register.framePointer).displace offset' = address ↔
        other ≡ slot [MOD 65536])) := by
  intro address
  obtain ⟨haim, hnone⟩ := run_addressing fill offset state
  refine ⟨?_, ?_, ?_⟩
  · obtain ⟨hrun, htransfers⟩ := run_concat haim hnone (transfer?_load name offset state)
    rw [← slotAccess_eq] at hrun htransfers
    refine ⟨_, _, by rw [Frame.loadSlot?, hoffset, Option.map_some],
      fitsFields_slotAccess (.inl rfl) name offset, hrun, htransfers, ?_, ?_, ?_⟩
    · rw [memory_run hrun, htransfers]
      rfl
    · exact Function.update_self ..
    · intro other hother hkept
      exact (Function.update_of_ne hother ..).trans (registers_aim hkept)
  · obtain ⟨hrun, htransfers⟩ := run_concat haim hnone (transfer?_store hname offset state)
    rw [← slotAccess_eq] at hrun htransfers
    refine ⟨_, _, by rw [Frame.storeSlot?, hoffset, Option.map_some],
      fitsFields_slotAccess (.inr rfl) name offset, hrun, htransfers, ?_, ?_⟩
    · rw [memory_run hrun, htransfers]
      rfl
    · exact fun other hkept => registers_aim hkept
  · intro hslot other hother offset' hoffset'
    exact Frame.displace_slotOffset?_iff hslot hother hoffset hoffset' _

open WordState in
/-- The slot `17` words below a frame pointer that is too low for it: the address wraps around, and
slot `65536` of the frame has it too. -/
theorem slotAccess_transfers_wrapped :
    let state : WordState := ⟨fun _ => 5, fun address => address⟩
    (Frame.slotOffset? ⟨16⟩ 0 = some (-17) ∧ "r4" ≠ Register.returnAddress) ∧
    (∃ code final, Frame.loadSlot? ⟨16⟩ "r4" 0 = some code ∧ run id code state = some final ∧
      final.registers "r4" = 65524 ∧ final.registers "sp" = 5) ∧
    (∃ code final, Frame.storeSlot? ⟨16⟩ "r4" 0 = some code ∧ run id code state = some final ∧
      final.memory 65524 = 5) ∧
    Word.displace 5 (-65553) = Word.displace 5 (-17) := by
  intro state
  have hoffset : Frame.slotOffset? ⟨16⟩ 0 = some (-17) := by decide
  have hname : "r4" ≠ Register.returnAddress := by decide
  obtain ⟨⟨code, final, hload, _, hrun, _, _, hword, hkept⟩,
    ⟨code', final', hstore, _, hrun', _, hmemory, _⟩, halias⟩ :=
    slotAccess_transfers ⟨16⟩ hoffset hname id state
  refine ⟨⟨hoffset, hname⟩, ⟨code, final, hload, hrun, ?_, ?_⟩,
    ⟨code', final', hstore, hrun', ?_⟩, ?_⟩
  · rw [hword]
    decide
  · exact hkept "sp" (by decide) (by decide)
  · rw [hmemory]
    decide
  · exact (halias (by decide) 65536 (by decide) (-65553) (by decide)).mpr rfl

end TurtleAlloc
