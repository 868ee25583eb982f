import Mathlib
import TurtleAlloc.Proofs.Spill.Names
import TurtleAlloc.Proofs.Spill.Simulation
import TurtleAlloc.Proofs.WordMachine

/-!
# Spilled registers that are set byte by byte

`LI` and `LUI` together set a register to any word.  Both are written as if they only wrote their
register: spill code does not load the slot in front of `LUI`, so that `LUI` keeps whatever lower
byte the temporary has.  All registers share one temporary here, hence that is the byte of the last
`LI`, of whatever register.

* `Code.lastByte?`, `Code.writing`, `Code.upToWrite` — the byte of the last `LI` among some lines;
  the lines that write a register, and the lines up to the last of them.
* `Line.head_of_mem_stores` — without loads, stores use the first temporary.
* `Code.BuildsWords`, `WordPlan` — streams of `LI` and `LUI`, and slots for all their registers.
* `Follows` — how the run of a stream and that of its groups belong together; kept by one line
  (`Follows.step`) and by all (`Follows.run`).
* `spill_bytes` — what the slots hold in the end, and when this is right;
  `splitPair_mixes_bytes` — a stream for which it is not.
-/

namespace TurtleAlloc

/-! ## The bytes of a stream -/

/-- The byte that `LI` sets a register to. -/
def Line.loadedByte? : Line → Option Byte
  | .instr .li [.register _, .number value] => some (.ofNumber value)
  | _ => none

/-- `LI` or `LUI` on a register. -/
def Line.SetsByte (line : Line) (name : String) (value : Int32) : Prop :=
  line = .instr .li [.register name, .number value] ∨
    line = .instr .lui [.register name, .number value]

namespace Code

/-- The byte of the last `LI`. -/
def lastByte? (code : Code) : Option Byte :=
  (code.filterMap Line.loadedByte?).getLast?

/-- The lines that write a register. -/
def writing (name : String) (code : Code) : Code :=
  code.filter fun line => name ∈ line.destinations

/-- The lines up to the last one that writes a register. -/
def upToWrite (name : String) (code : Code) : Code :=
  code.rdropWhile fun line => name ∉ line.destinations

variable {code : Code} {line : Line} {name : String}

theorem lastByte?_concat (code : Code) (line : Line) :
    lastByte? (code ++ [line]) = line.loadedByte?.or code.lastByte? := by
  rw [lastByte?, List.filterMap_append, List.getLast?_append, List.filterMap_cons,
    List.filterMap_nil]
  cases line.loadedByte? <;> rfl

theorem writing_concat_of_mem (h : name ∈ line.destinations) (code : Code) :
    writing name (code ++ [line]) = writing name code ++ [line] := by
  simp [writing, h]

theorem writing_concat_of_notMem (h : name ∉ line.destinations) (code : Code) :
    writing name (code ++ [line]) = writing name code := by
  simp [writing, h]

theorem upToWrite_concat_of_mem (h : name ∈ line.destinations) (code : Code) :
    upToWrite name (code ++ [line]) = code ++ [line] := by
  rw [upToWrite, List.rdropWhile_concat, if_neg (by simpa using h)]

theorem upToWrite_concat_of_notMem (h : name ∉ line.destinations) (code : Code) :
    upToWrite name (code ++ [line]) = upToWrite name code := by
  rw [upToWrite, List.rdropWhile_concat, if_pos (by simpa using h), upToWrite]

theorem writing_subset_upToWrite (name : String) (code : Code) :
    writing name code ⊆ upToWrite name code := by
  induction code using List.reverseRecOn with
  | nil => exact List.Subset.refl _
  | append_singleton code line ih =>
    by_cases h : name ∈ line.destinations
    · rw [upToWrite_concat_of_mem h]
      exact List.filter_subset_self _
    · rwa [writing_concat_of_notMem h, upToWrite_concat_of_notMem h]

theorem exists_lastByte? {byte : Byte} (hmem : line ∈ code) (hbyte : line.loadedByte? = some byte) :
    ∃ last, code.lastByte? = some last := by
  refine Option.isSome_iff_exists.mp (List.getLast?_isSome.mpr ?_)
  exact List.ne_nil_of_mem (List.mem_filterMap.mpr ⟨line, hmem, hbyte⟩)

/-- `ENTER` followed by `LI` and `LUI`, the first write of each register being an `LI`. -/
structure BuildsWords (code : Code) : Prop where
  enter : ∃ operands body, code = .instr .enter operands :: body
  sets : ∀ line ∈ code.tail, ∃ name value, line.SetsByte name value
  first : ∀ line ∈ code, ∀ name ∈ line.destinations,
    (code.writing name).head?.bind Line.opcode? = some .li

end Code

/-- All registers of a stream are spilled, each to a near slot of its own, and their intervals
contain the lines that name them.  No register is called like those of the pool. -/
structure WordPlan (code : Code) (spilled : List Interval) : Prop where
  nodup : (spilled.map Interval.register).Nodup
  mem : ∀ line ∈ code, ∀ name ∈ line.destinations, name ∈ spilled.map Interval.register
  fresh : ∀ i ∈ spilled, ∀ number, Register.physical number ≠ i.register
  covers : ∀ i ∈ spilled, ∀ index, code.Writes index i.register → i.contains index = true
  slot : ∀ i ∈ spilled, ∃ slot < 2 ^ 31, i.slot = some slot ∧
    ∀ offset, code.frame.slotOffset? slot = some offset → isNear offset = true
  slot_nodup : (spilled.map Interval.slot).Nodup

variable {code : Code} {spilled : List Interval} {temporaries : List Nat} {groups : List Group}
  {frame : Frame} {index : Nat} {line : Line} {group : Group} {name : String} {value : Int32}

theorem Register.physical_ne_of_head? (number : Nat) (h : name.toList.head? ≠ some 'r') :
    Register.physical number ≠ name := by
  rintro rfl
  exact h (by simp [Register.physical])

/-! ## The group of a line -/

theorem Line.SetsByte.roles (h : line.SetsByte name value) :
    line.sources = [] ∧ line.destinations = [name] := by
  rcases h with rfl | rfl <;> exact ⟨rfl, rfl⟩

theorem Line.head_of_mem_stores (hreads : line.sources = [])
    (hok : (line.spill frame spilled temporaries index).result = .ok group) :
    ∀ a ∈ group.stores, temporaries.head? = some a.temporary := by
  obtain ⟨draft, rfl, _, hstores⟩ := Line.spill_induction
    (motive := fun _ draft => draft.group.line.sources = [] ∧
      ∀ a ∈ draft.group.stores, temporaries.head? = some a.temporary) hok
    ⟨hreads, fun a ha => absurd ha List.not_mem_nil⟩ (by
      rintro interval _ draft next ⟨hsources, hstores⟩ hnext
      cases Draft.treats_of_ok hnext with
      | idle _ _ => exact ⟨hsources, hstores⟩
      | load _ _ _ hmem _ _ => exact absurd hmem (by simp [hsources])
      | loadStore _ _ _ hmem _ _ => exact absurd hmem (by simp [hsources])
      | store access _ _ _ htemporary =>
        refine ⟨?_, fun a ha => ?_⟩
        · rw [Draft.withStore, Line.rename, Line.sources_mapRegisters, hsources]
          rfl
        · rcases List.mem_cons.mp ha with rfl | ha
          · exact htemporary
          · exact hstores a ha)
  exact hstores

/-- The line sets a spilled register byte-wise, and its group does the same to a temporary and
stores it. -/
def Group.SetsByte (frame : Frame) (spilled : List Interval) (temporary : Nat) (line : Line)
    (group : Group) : Prop :=
  ∃ (access : Access) (value : Int32), line.SetsByte access.register value ∧
    access.temporary = temporary ∧
    (∃ i ∈ spilled, i.register = access.register ∧ i.slot = some access.slot) ∧
    frame.slotOffset? access.slot = some access.offset ∧
    group = ⟨[], line.rename access.register access.temporaryName, [access]⟩

theorem WordPlan.spillable (hplan : WordPlan code spilled) (temporaries : List Nat) :
    Spillable spilled temporaries :=
  ⟨hplan.nodup, fun i hi t _ => hplan.fresh i hi t⟩

theorem WordPlan.slots (hplan : WordPlan code spilled) :
    ∀ i ∈ spilled, ∃ slot < 2 ^ 31, i.slot = some slot :=
  fun i hi => (hplan.slot i hi).imp fun _ h => ⟨h.1, h.2.1⟩

section Groups

variable (hwords : code.BuildsWords) (hplan : WordPlan code spilled)

include hwords hplan

theorem WordPlan.setsByte (hget : code[index + 1]? = some line)
    (hspill : (line.spill code.frame spilled temporaries (index + 1)).result = .ok group) :
    group.SetsByte code.frame spilled (temporaries.headD 0) line := by
  have htail : line ∈ code.tail := by
    rw [← List.getElem?_tail] at hget
    exact List.mem_of_getElem? hget
  obtain ⟨name, value, hsets⟩ := hwords.sets line htail
  obtain ⟨hreads, hwrites⟩ := hsets.roles
  obtain ⟨unused, hspills⟩ := Line.spills_of_ok (hplan.spillable temporaries) hspill
  have hloads : group.loads = [] := by
    have hregisters := hspills.loads
    rw [hreads] at hregisters
    simpa using hregisters
  rcases hspills.stores_cases hplan.nodup fun i hi hmem =>
    hplan.covers i hi _ ⟨line, hget, hmem⟩ with ⟨_, hnone⟩ | ⟨access, hstores, hdestinations⟩
  · -- the register that the line writes is spilled
    have hname := hplan.mem line (List.mem_of_getElem? hget) name (by simp [hwrites])
    obtain ⟨i, hi, rfl⟩ := List.mem_map.mp hname
    exact absurd (by simp [hwrites]) (hnone i hi)
  · rw [hwrites, List.singleton_inj] at hdestinations
    have hmem : access ∈ group.loads ++ group.stores := by simp [hstores]
    obtain ⟨i, hi, hregister, hslot, hoffset⟩ := hspills.reaches access hmem
    have hhead := Line.head_of_mem_stores hreads hspill access (by simp [hstores])
    refine ⟨access, value, hdestinations ▸ hsets, ?_,
      ⟨i, (List.mem_filter.mp hi).1, hregister, hslot⟩, hoffset, ?_⟩
    · rw [List.headD_eq_head?_getD, hhead, Option.getD_some]
    · have hline : group.line = line.rename access.register access.temporaryName := by
        rw [hspills.line_eq, Line.rename, hloads, hstores]
        congr 1
        funext other
        have hnone : ∀ a ∈ ([] : List Access), a.register ≠ access.register := by simp
        exact Access.standIn_insert hnone other
      rw [← hline, ← hstores, ← hloads]

/-- **The groups of a stream** that sets registers byte-wise: `ENTER`, and a store for each line. -/
theorem WordPlan.groups_eq (hok : (code.spill spilled temporaries).result = .ok groups) :
    ∃ operands rest, groups = .ofLine (.instr .enter operands) :: rest ∧
      List.Forall₂ (Group.SetsByte code.frame spilled (temporaries.headD 0)) code.tail rest := by
  obtain ⟨operands, body, hcode⟩ := hwords.enter
  by_cases hspilled : spilled = []
  · -- no register is written, so there is no line behind `ENTER`
    have hbody : body = [] := by
      by_contra hne
      obtain ⟨line, later, rfl⟩ := List.exists_cons_of_ne_nil hne
      obtain ⟨name, value, hsets⟩ := hwords.sets line (by simp [hcode])
      have hmem := hplan.mem line (by simp [hcode]) name (by simp [hsets.roles.2])
      rw [hspilled] at hmem
      cases hmem
    subst hspilled hbody
    cases hok
    exact ⟨operands, [], by rw [hcode]; rfl, by rw [hcode]; exact .nil⟩
  · obtain ⟨_, hlength, size, _, hlines⟩ := Code.lines_of_spill hspilled hok
    rcases groups with _ | ⟨first, rest⟩
    · rw [hcode] at hlength
      cases hlength
    · refine ⟨[.number size], rest, ?_, Code.forall₂_lines ?_ fun index group hgroup => ?_⟩
      · obtain ⟨line, hget, hspill⟩ := hlines 0 first rfl
        rw [hcode] at hget
        cases hget
        rw [Line.spill_eq_ofLine rfl rfl hspill]
      · rw [List.length_tail, ← hlength]
        rfl
      · obtain ⟨line, hget, hspill⟩ := hlines (index + 1) group hgroup
        rw [Code.grow, List.getElem?_set_ne (Nat.succ_ne_zero index).symm] at hget
        exact ⟨line, by rw [List.getElem?_tail, hget], hplan.setsByte hwords hget hspill⟩

end Groups

/-! ## Running a stream and its groups -/

/-- How the states belong together after some lines and their groups. -/
structure Follows (frame : Frame) (spilled : List Interval) (temporary : String) (done : Code)
    (source target : WordState) : Prop where
  /-- The lower byte of a register is that of its last `LI`. -/
  own : ∀ name byte, (done.writing name).lastByte? = some byte →
    (source.registers name).low = byte
  /-- The lower byte of the temporary is that of the last `LI` of all. -/
  recent : ∀ byte, done.lastByte? = some byte → (target.registers temporary).low = byte
  /-- The upper byte of a cell is that of its register. -/
  upper : ∀ i ∈ spilled, ∀ slot offset, i.slot = some slot →
    frame.slotOffset? slot = some offset → done.writing i.register ≠ [] →
      (target.cell offset).high = (source.registers i.register).high
  /-- The lower byte of a cell is that of the temporary when it was stored. -/
  lower : ∀ i ∈ spilled, ∀ slot offset byte, i.slot = some slot →
    frame.slotOffset? slot = some offset → (done.upToWrite i.register).lastByte? = some byte →
      (target.cell offset).low = byte

/-- What a byte-wise setting leaves in a register, whatever register it is made to use. -/
theorem Line.SetsByte.execute_rename (h : line.SetsByte name value) (fill : Byte → Byte) :
    ∃ high : Byte, ∀ (other : String) (state : WordState),
      state.execute fill (line.rename name other) = some (state.set other
        (.ofBytes high (line.loadedByte?.getD (state.registers other).low))) := by
  rcases h with rfl | rfl
  · refine ⟨fill (.ofNumber value), fun other state => ?_⟩
    simp [Line.rename, Line.mapRegisters, Operand.mapRegister, WordState.execute,
      Line.loadedByte?]
  · refine ⟨.ofNumber value, fun other state => ?_⟩
    simp [Line.rename, Line.mapRegisters, Operand.mapRegister, WordState.execute,
      Line.loadedByte?]

theorem Line.rename_self (name : String) (line : Line) : line.rename name name = line := by
  have hsame : (fun other => if other = name then name else other) = fun other => other := by
    funext other
    split_ifs with heq
    · exact heq.symm
    · rfl
  rw [Line.rename, hsame, Line.mapRegisters_id]

theorem getD_eq_of_or {own earlier : Option Byte} {byte kept : Byte}
    (h : own.or earlier = some byte) (hkept : earlier = some byte → kept = byte) :
    own.getD kept = byte := by
  cases own with
  | none => exact hkept h
  | some _ => exact Option.some.inj h

section Run

variable {done : Code} {source target : WordState} {temporary : Nat}

theorem WordPlan.isNear_of_slot (hplan : WordPlan code spilled) {i : Interval} (hi : i ∈ spilled)
    {slot : Nat} {offset : Int32} (hslot : i.slot = some slot)
    (hoffset : code.frame.slotOffset? slot = some offset) : isNear offset = true := by
  obtain ⟨slot', _, hslot', hnear⟩ := hplan.slot i hi
  cases hslot.symm.trans hslot'
  exact hnear offset hoffset

/-- A word that is kept in the slot of one register leaves the slots of the others. -/
theorem WordPlan.cell_keep (hplan : WordPlan code spilled) {i j : Interval} (hi : i ∈ spilled)
    (hj : j ∈ spilled) {slot other : Nat} {offset offset' : Int32} (hslot : i.slot = some slot)
    (hother : j.slot = some other) (hoffset : code.frame.slotOffset? slot = some offset)
    (hoffset' : code.frame.slotOffset? other = some offset')
    (hname : name ≠ Register.framePointer) (word : Word) :
    (target.keep name offset word).cell offset' =
      if j.register = i.register then word else target.cell offset' := by
  split_ifs with heq
  · cases List.inj_on_of_nodup_map hplan.nodup hj hi heq
    cases hslot.symm.trans hother
    cases hoffset.symm.trans hoffset'
    exact WordState.cell_keep_self hname
  · refine WordState.cell_keep_of_ne hname (hplan.isNear_of_slot hi hslot hoffset)
      (hplan.isNear_of_slot hj hother hoffset') ?_
    rintro rfl
    exact heq (congrArg _ (eq_of_slotOffset? hplan.slots hplan.slot_nodup hj hi hother hslot
      hoffset' hoffset))

/-- What a line and its group do: both set the same upper byte, and the same lower one unless the
line keeps it. -/
theorem Group.SetsByte.exists_run (hplan : WordPlan code spilled)
    (hgroup : group.SetsByte code.frame spilled temporary line) (fill : Byte → Byte) :
    ∃ (i : Interval) (slot : Nat) (offset : Int32) (high : Byte), i ∈ spilled ∧
      i.slot = some slot ∧ code.frame.slotOffset? slot = some offset ∧
      line.destinations = [i.register] ∧
      (∀ source : WordState, source.execute fill line = some (source.set i.register
        (.ofBytes high (line.loadedByte?.getD (source.registers i.register).low)))) ∧
      ∀ target : WordState, target.run fill group.code =
        some (target.keep (Register.physical temporary) offset (.ofBytes high
          (line.loadedByte?.getD (target.registers (Register.physical temporary)).low))) := by
  obtain ⟨access, value, hsets, rfl, ⟨i, hi, hregister, hslot⟩, hoffset, rfl⟩ := hgroup
  obtain ⟨high, hexecute⟩ := hsets.execute_rename fill
  refine ⟨i, access.slot, access.offset, high, hi, hslot, hoffset, ?_, fun source => ?_,
    fun target => ?_⟩
  · rw [hsets.roles.2, hregister]
  · rw [hregister, ← hexecute, Line.rename_self]
  · rw [Group.code, List.flatMap_nil, List.nil_append, List.flatMap_singleton, WordState.run_cons,
      hexecute, Option.bind_some]
    exact WordState.run_store (Register.physical_ne_of_isPinned access.temporary (by decide))
      (hplan.isNear_of_slot hi hslot hoffset)

/-- **One line and its group** lead from states that belong together to such states. -/
theorem Follows.step (hplan : WordPlan code spilled) (fill : Byte → Byte)
    (h : Follows code.frame spilled (Register.physical temporary) done source target)
    (hgroup : group.SetsByte code.frame spilled temporary line) :
    ∃ source' target', source.execute fill line = some source' ∧
      target.run fill group.code = some target' ∧
      Follows code.frame spilled (Register.physical temporary) (done ++ [line])
        source' target' := by
  obtain ⟨j, slot, offset, high, hj, hslot, hoffset, hwrites, hsource, htarget⟩ :=
    hgroup.exists_run hplan fill
  refine ⟨_, _, hsource source, htarget target, ?_⟩
  have hframe : Register.physical temporary ≠ Register.framePointer :=
    Register.physical_ne_of_isPinned temporary (by decide)
  have hmem : j.register ∈ line.destinations := by simp [hwrites]
  have hnotMem : ∀ {name}, name ≠ j.register → name ∉ line.destinations := by simp [hwrites]
  -- in each case the register is the one that the line sets, or nothing changes
  constructor
  case own =>
    intro name byte hbyte
    by_cases hname : name = j.register
    · subst hname
      rw [Code.writing_concat_of_mem hmem, Code.lastByte?_concat] at hbyte
      rw [WordState.registers_set_self, Word.low_ofBytes]
      exact getD_eq_of_or hbyte (h.own _ byte)
    · rw [Code.writing_concat_of_notMem (hnotMem hname)] at hbyte
      rw [WordState.registers_set_of_ne hname]
      exact h.own name byte hbyte
  case recent =>
    intro byte hbyte
    rw [Code.lastByte?_concat] at hbyte
    rw [WordState.registers_keep, WordState.registers_set_self, Word.low_ofBytes]
    exact getD_eq_of_or hbyte (h.recent byte)
  case upper =>
    intro i hi slot' offset' hslot' hoffset' hwritten
    rw [hplan.cell_keep hj hi hslot hslot' hoffset hoffset' hframe]
    split_ifs with hname
    · rw [hname, WordState.registers_set_self, Word.high_ofBytes, Word.high_ofBytes]
    · rw [Code.writing_concat_of_notMem (hnotMem hname)] at hwritten
      rw [WordState.registers_set_of_ne hname]
      exact h.upper i hi slot' offset' hslot' hoffset' hwritten
  case lower =>
    intro i hi slot' offset' byte hslot' hoffset' hbyte
    rw [hplan.cell_keep hj hi hslot hslot' hoffset hoffset' hframe]
    split_ifs with hname
    · rw [hname, Code.upToWrite_concat_of_mem hmem, Code.lastByte?_concat] at hbyte
      rw [Word.low_ofBytes]
      exact getD_eq_of_or hbyte (h.recent byte)
    · rw [Code.upToWrite_concat_of_notMem (hnotMem hname)] at hbyte
      exact h.lower i hi slot' offset' byte hslot' hoffset' hbyte

/-- **All lines and their groups**, from states that belong together. -/
theorem Follows.run (hplan : WordPlan code spilled) (fill : Byte → Byte) {body : Code}
    {rest : List Group}
    (hgroups : List.Forall₂ (Group.SetsByte code.frame spilled temporary) body rest)
    (h : Follows code.frame spilled (Register.physical temporary) done source target) :
    ∃ source' target', source.run fill body = some source' ∧
      target.run fill (Code.ofGroups rest) = some target' ∧
      Follows code.frame spilled (Register.physical temporary) (done ++ body) source' target' := by
  induction hgroups generalizing done source target with
  | nil => exact ⟨source, target, rfl, rfl, by rwa [List.append_nil]⟩
  | @cons line group body rest hgroup _ ih =>
    obtain ⟨source', target', hsource, htarget, hnext⟩ := h.step hplan fill hgroup
    obtain ⟨source'', target'', hsource', htarget', hlast⟩ := ih hnext
    refine ⟨source'', target'', ?_, ?_, by rwa [List.append_cons]⟩
    · rw [WordState.run_cons, hsource, Option.bind_some, hsource']
    · show target.run fill (group.code ++ Code.ofGroups rest) = _
      rw [WordState.run_append, htarget, Option.bind_some, htarget']

end Run

theorem Code.BuildsWords.exists_loadedByte (hwords : code.BuildsWords) (hmem : line ∈ code)
    (hwrites : name ∈ line.destinations) :
    ∃ first ∈ code.writing name, ∃ byte, first.loadedByte? = some byte := by
  obtain ⟨first, hhead, hopcode⟩ := Option.bind_eq_some_iff.mp (hwords.first line hmem name hwrites)
  have hfirst : first ∈ code.writing name := List.mem_of_mem_head? hhead
  refine ⟨first, hfirst, ?_⟩
  obtain ⟨operands, body, hcode⟩ := hwords.enter
  have hfirst_mem := (List.mem_filter.mp hfirst).1
  rw [hcode] at hfirst_mem
  rcases List.mem_cons.mp hfirst_mem with rfl | htail
  · cases hopcode
  · obtain ⟨_, value, rfl | rfl⟩ := hwords.sets first (by rwa [hcode])
    · exact ⟨.ofNumber value, rfl⟩
    · cases hopcode

/-- **Registers set byte-wise and their slots.**  Both runs end.  The slot of a register has the
upper byte of the register, and the lower byte that the last `LI` set up to the last write of the
register.  Hence it holds the register exactly when that byte is the one of the register's own last
`LI`. -/
theorem spill_bytes (fill : Byte → Byte) (hwords : code.BuildsWords) (hplan : WordPlan code spilled)
    (hok : (code.spill spilled temporaries).result = .ok groups) (source target : WordState) :
    ∃ source' target', source.run fill code = some source' ∧
      target.run fill (Code.ofGroups groups) = some target' ∧
      ∀ i ∈ spilled, (∃ line ∈ code, i.register ∈ line.destinations) → ∃ slot offset,
        i.slot = some slot ∧ code.frame.slotOffset? slot = some offset ∧
        (target'.cell offset).high = (source'.registers i.register).high ∧
        (code.upToWrite i.register).lastByte? = some (target'.cell offset).low ∧
        (code.writing i.register).lastByte? = some (source'.registers i.register).low ∧
        (target'.cell offset = source'.registers i.register ↔
          (code.upToWrite i.register).lastByte? = (code.writing i.register).lastByte?) := by
  obtain ⟨operands, rest, rfl, hgroups⟩ := hplan.groups_eq hwords hok
  obtain ⟨operands', body, hcode⟩ := hwords.enter
  -- `ENTER` writes no register, so at first nothing has to agree
  have hstart : Follows code.frame spilled (Register.physical (temporaries.headD 0))
      [.instr .enter operands'] source target :=
    ⟨nofun, nofun, fun _ _ _ _ _ _ hne => absurd rfl hne, nofun⟩
  obtain ⟨source', target', hsource, htarget, hend⟩ := hstart.run hplan fill hgroups
  rw [hcode, List.tail_cons] at hsource
  refine ⟨source', target', ?_, htarget, ?_⟩
  · rw [hcode]
    exact hsource
  rintro i hi ⟨line, hmem, hwrites⟩
  have hdone : [.instr .enter operands'] ++ code.tail = code := by
    rw [hcode]
    rfl
  rw [hdone] at hend
  obtain ⟨slot, offset, hslot, hoffset⟩ :=
    Code.exists_cell (hplan.spillable temporaries) hplan.slots hok hi
  obtain ⟨first, hfirst, byte, hbyte⟩ := hwords.exists_loadedByte hmem hwrites
  obtain ⟨own, hown⟩ := Code.exists_lastByte? hfirst hbyte
  obtain ⟨recent, hrecent⟩ :=
    Code.exists_lastByte? (Code.writing_subset_upToWrite _ _ hfirst) hbyte
  have hupper := hend.upper i hi slot offset hslot hoffset (List.ne_nil_of_mem hfirst)
  have hlow := hend.lower i hi slot offset recent hslot hoffset hrecent
  have hkept := hend.own i.register own hown
  refine ⟨slot, offset, hslot, hoffset, hupper, by rw [hrecent, hlow], by rw [hown, hkept], ?_⟩
  rw [hrecent, hown, Option.some_inj, ← hlow, ← hkept]
  exact ⟨congrArg Word.low, Word.ext_bytes hupper⟩

/-! ## A pair that is split -/

namespace SplitPair

/-- `a` is set by a pair, and `b` in the middle of it. -/
def stream : Code := [.instr .enter [], .instr .li [.register "a", .number 1],
  .instr .li [.register "b", .number 2], .instr .lui [.register "a", .number 3]]

/-- Slots for both registers. -/
def intervals : List Interval := [⟨"a", 1, 4, none, some 0⟩, ⟨"b", 2, 3, none, some 1⟩]

/-- The stream with both registers spilled. -/
def lowered : List Group := [.ofLine (.instr .enter [.number 2]),
  ⟨[], .instr .li [.register "r0", .number 1], [⟨"a", 0, 0, -1⟩]⟩,
  ⟨[], .instr .li [.register "r0", .number 2], [⟨"b", 1, 0, -2⟩]⟩,
  ⟨[], .instr .lui [.register "r0", .number 3], [⟨"a", 0, 0, -1⟩]⟩]

/-- All registers and the whole memory are zero. -/
def start : WordState := ⟨fun _ => 0, fun _ => 0⟩

theorem spill_eq : (stream.spill intervals [0]).result = .ok lowered := by decide +kernel

theorem slotOffset?_eq :
    stream.frame.slotOffset? 0 = some (-1) ∧ stream.frame.slotOffset? 1 = some (-2) := by decide

theorem buildsWords : stream.BuildsWords where
  enter := ⟨_, _, rfl⟩
  sets := by simp [stream, Line.SetsByte]
  first := by decide

theorem wordPlan : WordPlan stream intervals where
  nodup := by decide
  mem := by decide
  fresh := by
    have hfresh : ∀ i ∈ intervals, i.register.toList.head? ≠ some 'r' := by decide
    exact fun i hi number => Register.physical_ne_of_head? number (hfresh i hi)
  covers := by
    rintro i hi index ⟨line, hget, hmem⟩
    have hlt : index < 4 := (List.getElem?_eq_some_iff.mp hget).1
    interval_cases index <;> cases hget <;> revert i <;> decide
  slot := by simp [intervals, slotOffset?_eq, isNear]
  slot_nodup := by decide

end SplitPair

/-- The slot of `b` is right, that of `a` is not. -/
theorem spill_bytes_splitPair :
    (SplitPair.stream.BuildsWords ∧ WordPlan SplitPair.stream SplitPair.intervals ∧
      (SplitPair.stream.spill SplitPair.intervals [0]).result = .ok SplitPair.lowered) ∧
    ∃ source target, SplitPair.start.run (fun _ => 0) SplitPair.stream = some source ∧
      SplitPair.start.run (fun _ => 0) (Code.ofGroups SplitPair.lowered) = some target ∧
      target.cell (-2) = source.registers "b" ∧ target.cell (-1) ≠ source.registers "a" := by
  obtain ⟨source, target, hsource, htarget, hcells⟩ :=
    spill_bytes (fun _ => 0) SplitPair.buildsWords SplitPair.wordPlan SplitPair.spill_eq
      SplitPair.start SplitPair.start
  refine ⟨⟨SplitPair.buildsWords, SplitPair.wordPlan, SplitPair.spill_eq⟩, source, target, hsource,
    htarget, ?_, ?_⟩
  · obtain ⟨_, _, hslot, hoffset, _, _, _, hiff⟩ :=
      hcells ⟨"b", 2, 3, none, some 1⟩ (by decide) (by decide)
    cases hslot
    cases SplitPair.slotOffset?_eq.2.symm.trans hoffset
    exact hiff.mpr (by decide)
  · obtain ⟨_, _, hslot, hoffset, _, _, _, hiff⟩ :=
      hcells ⟨"a", 1, 4, none, some 0⟩ (by decide) (by decide)
    cases hslot
    cases SplitPair.slotOffset?_eq.1.symm.trans hoffset
    exact fun heq => absurd (hiff.mp heq) (by decide)

/-- The register `a` is `0x0301` in the end, and its slot is left with the lower byte of `b`. -/
theorem splitPair_mixes_bytes :
    (SplitPair.stream.BuildsWords ∧ WordPlan SplitPair.stream SplitPair.intervals ∧
      (SplitPair.stream.spill SplitPair.intervals [0]).result = .ok SplitPair.lowered) ∧
    SplitPair.stream.frame.slotOffset? 0 = some (-1) ∧
    (SplitPair.start.run (fun _ => 0) SplitPair.stream).map
      (fun state => state.registers "a") = some 0x0301 ∧
    (SplitPair.start.run (fun _ => 0) (Code.ofGroups SplitPair.lowered)).map
      (fun state => state.cell (-1)) = some 0x0302 :=
  ⟨⟨SplitPair.buildsWords, SplitPair.wordPlan, SplitPair.spill_eq⟩, SplitPair.slotOffset?_eq.1,
    by decide +kernel, by decide +kernel⟩

end TurtleAlloc
