import Mathlib
import TurtleAlloc.Proofs.Compile.Outcome
import TurtleAlloc.Proofs.Layout
import TurtleAlloc.Proofs.Spill.Names

/-!
# What spill code does to pinned registers

Spill code addresses its slots from the frame pointer.  For a distant slot it builds the address in
the return-address register, whatever the program keeps there.

* `between`, `accessesBetween`, `spillCodeBetween` — the spill code that stands between two lines of
  a compiled stream; `mem_spillCodeBetween_iff` finds it in the code.
* `Code.IsLastWrite` — the last line in front of another one that writes a register.
* `exists_writes_slotAccess_iff` — the code that moves one slot writes a pinned register exactly if
  the slot is distant, and then the return-address register.
* `compile_writes_pinned_iff` — the same for the spill code between a line that reads a pinned
  register and the last line that wrote it; `distant_slot_overwrites_returnAddress` is a stream
  whose return address is lost.
-/

namespace TurtleAlloc

variable {code : Code} {pool registers index : Nat} {groups : List Group} {last : Option Nat}
  {name : String}

/-! ## Spill code between two lines -/

/-- What the groups have behind the image of the line `last`, or from the start on if there is none,
and in front of the image of the line `index`.  The image of a line has the loads of its group in
front of it and the stores behind it. -/
def between {α : Type} (loads stores : Group → List α) (groups : List Group) (last : Option Nat)
    (index : Nat) : List α :=
  groups.zipIdx.flatMap fun (group, k) =>
    (if (∀ j ∈ last, j < k) ∧ k ≤ index then loads group else []) ++
      if (∀ j ∈ last, j ≤ k) ∧ k < index then stores group else []

/-- The movements of slots between the images of two lines. -/
def accessesBetween (groups : List Group) (last : Option Nat) (index : Nat) : List Access :=
  between Group.loads Group.stores groups last index

/-- The spill code between the images of two lines. -/
def spillCodeBetween (groups : List Group) (last : Option Nat) (index : Nat) : Code :=
  between (fun group => group.loads.flatMap Access.load)
    (fun group => group.stores.flatMap Access.store) groups last index

theorem mem_between {α : Type} {loads stores : Group → List α} {a : α} :
    a ∈ between loads stores groups last index ↔ ∃ (k : Nat) (group : Group),
      groups[k]? = some group ∧
        (((∀ j ∈ last, j < k) ∧ k ≤ index) ∧ a ∈ loads group ∨
          ((∀ j ∈ last, j ≤ k) ∧ k < index) ∧ a ∈ stores group) := by
  unfold between
  simp only [List.mem_flatMap, Prod.exists, List.mem_zipIdx_iff_getElem?, List.mem_append]
  constructor
  · rintro ⟨group, k, hget, hmem | hmem⟩
    · split_ifs at hmem with h
      · exact ⟨k, group, hget, .inl ⟨h, hmem⟩⟩
      · cases hmem
    · split_ifs at hmem with h
      · exact ⟨k, group, hget, .inr ⟨h, hmem⟩⟩
      · cases hmem
  · rintro ⟨k, group, hget, ⟨h, hmem⟩ | ⟨h, hmem⟩⟩
    · exact ⟨group, k, hget, .inl (by rwa [if_pos h])⟩
    · exact ⟨group, k, hget, .inr (by rwa [if_pos h])⟩

theorem mem_groups_of_mem_accessesBetween {access : Access}
    (h : access ∈ accessesBetween groups last index) :
    ∃ group ∈ groups, access ∈ group.loads ++ group.stores := by
  obtain ⟨k, group, hget, ⟨_, hmem⟩ | ⟨_, hmem⟩⟩ := mem_between.mp h
  · exact ⟨group, List.mem_of_getElem? hget, List.mem_append_left _ hmem⟩
  · exact ⟨group, List.mem_of_getElem? hget, List.mem_append_right _ hmem⟩

/-- **Spill code between two lines** is all that the code has between their images, other images
apart. -/
theorem mem_spillCodeBetween_iff {line : Line} :
    line ∈ spillCodeBetween groups last index ↔ ∃ position : Nat,
      (Code.ofGroups groups)[position]? = some line ∧
      (∀ j ∈ last, Code.imageOf groups j < position) ∧ position < Code.imageOf groups index ∧
      ∀ k, position ≠ Code.imageOf groups k := by
  rw [spillCodeBetween, mem_between]
  constructor
  · rintro ⟨k, group, hget, ⟨⟨hlast, hindex⟩, hmem⟩ | ⟨⟨hlast, hindex⟩, hmem⟩⟩
    · obtain ⟨q, hlt, hq⟩ := Group.mem_loads_iff.mp hmem
      have hcode := (List.getElem?_eq_some_iff.mp hq).1
      refine ⟨_, Code.getElem?_ofGroups_iff.mpr ⟨k, group, q, hget, hq, rfl⟩, ?_, ?_, ?_⟩
      · exact fun j hj => (Code.imageOf_lt_iff hget hcode).mpr (.inl (hlast j hj))
      · exact (Code.lt_imageOf_iff hget hcode).mpr (by omega)
      · exact fun other => Code.ne_imageOf hget hcode (Nat.ne_of_lt hlt)
    · obtain ⟨q, hlt, hq⟩ := Group.mem_stores_iff.mp hmem
      have hcode := (List.getElem?_eq_some_iff.mp hq).1
      refine ⟨_, Code.getElem?_ofGroups_iff.mpr ⟨k, group, q, hget, hq, rfl⟩, ?_, ?_, ?_⟩
      · intro j hj
        have hle := hlast j hj
        exact (Code.imageOf_lt_iff hget hcode).mpr (by omega)
      · exact (Code.lt_imageOf_iff hget hcode).mpr (.inl hindex)
      · exact fun other => Code.ne_imageOf hget hcode (Nat.ne_of_gt hlt)
  · rintro ⟨_, hline, hlast, hindex, hinserted⟩
    obtain ⟨k, group, q, hget, hq, rfl⟩ := Code.getElem?_ofGroups_iff.mp hline
    have hcode := (List.getElem?_eq_some_iff.mp hq).1
    have hne := hinserted k
    rw [Code.imageOf_eq hget] at hne
    rw [Code.lt_imageOf_iff hget hcode] at hindex
    simp only [Code.imageOf_lt_iff hget hcode] at hlast
    refine ⟨k, group, hget, ?_⟩
    rcases Nat.lt_or_gt_of_ne fun heq => hne (congrArg _ heq) with hlt | hlt
    · refine .inl ⟨⟨fun j hj => ?_, by omega⟩, Group.mem_loads_iff.mpr ⟨q, hlt, hq⟩⟩
      have := hlast j hj
      omega
    · refine .inr ⟨⟨fun j hj => ?_, by omega⟩, Group.mem_stores_iff.mpr ⟨q, hlt, hq⟩⟩
      have := hlast j hj
      omega

namespace Code

/-- The last line in front of a line that writes a register; nothing if there is none. -/
def IsLastWrite (code : Code) (name : String) (index : Nat) (last : Option Nat) : Prop :=
  (∀ j ∈ last, j < index ∧ code.Writes j name) ∧
    ∀ k < index, (∀ j ∈ last, j < k) → ¬ code.Writes k name

instance (code : Code) (name : String) (index : Nat) (last : Option Nat) :
    Decidable (code.IsLastWrite name index last) :=
  inferInstanceAs (Decidable (_ ∧ _))

end Code

/-! ## One slot -/

/-- **The code that moves one slot** writes a pinned register only to build a distant address. -/
theorem exists_writes_slotAccess_iff {opcode : Opcode} {temporary : Nat} {offset : Int32}
    (hopcode : opcode = .load ∨ opcode = .store) (hpinned : Register.isPinned name = true) :
    (∃ line ∈ slotAccess opcode (Register.physical temporary) offset, name ∈ line.destinations) ↔
      name = Register.returnAddress ∧ isNear offset = false := by
  have hne : name ≠ Register.physical temporary := fun heq =>
    Register.physical_ne_of_isPinned temporary hpinned heq.symm
  -- the movement itself writes the temporary, or nothing
  have hmove : ∀ rest, name ∉
      (Line.instr opcode (.register (Register.physical temporary) :: rest)).destinations := by
    intro rest
    rcases hopcode with rfl | rfl <;>
      simp [Line.destinations, Line.registersOf, Operand.register?, Opcode.writesFirst, hne]
  unfold slotAccess
  cases hnear : isNear offset with
  | true => simpa using hmove _
  | false =>
    constructor
    · rintro ⟨line, hline, hwrites⟩
      refine ⟨?_, rfl⟩
      simp only [Bool.false_eq_true, if_false, List.mem_cons, List.not_mem_nil, or_false] at hline
      rcases hline with rfl | rfl | rfl | rfl
      · simpa [Line.destinations, Line.registersOf, Operand.register?, Opcode.writesFirst]
          using hwrites
      · simpa [Line.destinations, Line.registersOf, Operand.register?, Opcode.writesFirst]
          using hwrites
      · simpa [Line.destinations, Line.registersOf, Operand.register?, Opcode.writesFirst]
          using hwrites
      · exact absurd hwrites (hmove _)
    · rintro ⟨rfl, _⟩
      refine ⟨_, List.mem_cons_self, ?_⟩
      simp [Line.destinations, Line.registersOf, Operand.register?, Opcode.writesFirst]

theorem exists_writes_spillCodeBetween_iff (hpinned : Register.isPinned name = true) :
    (∃ line ∈ spillCodeBetween groups last index, name ∈ line.destinations) ↔
      name = Register.returnAddress ∧
        ∃ access ∈ accessesBetween groups last index, isNear access.offset = false := by
  unfold spillCodeBetween accessesBetween
  simp only [mem_between, List.mem_flatMap]
  constructor
  · rintro ⟨line, ⟨k, group, hget, hcases⟩, hwrites⟩
    rcases hcases with ⟨h, access, haccess, hline⟩ | ⟨h, access, haccess, hline⟩
    · obtain ⟨hname, hdistant⟩ :=
        (exists_writes_slotAccess_iff (.inl rfl) hpinned).mp ⟨line, hline, hwrites⟩
      exact ⟨hname, access, ⟨k, group, hget, .inl ⟨h, haccess⟩⟩, hdistant⟩
    · obtain ⟨hname, hdistant⟩ :=
        (exists_writes_slotAccess_iff (.inr rfl) hpinned).mp ⟨line, hline, hwrites⟩
      exact ⟨hname, access, ⟨k, group, hget, .inr ⟨h, haccess⟩⟩, hdistant⟩
  · rintro ⟨hname, access, ⟨k, group, hget, ⟨h, haccess⟩ | ⟨h, haccess⟩⟩, hdistant⟩
    · obtain ⟨line, hline, hwrites⟩ :=
        (exists_writes_slotAccess_iff (.inl rfl) hpinned).mpr ⟨hname, hdistant⟩
      exact ⟨line, ⟨k, group, hget, .inl ⟨h, access, haccess, hline⟩⟩, hwrites⟩
    · obtain ⟨line, hline, hwrites⟩ :=
        (exists_writes_slotAccess_iff (.inr rfl) hpinned).mpr ⟨hname, hdistant⟩
      exact ⟨line, ⟨k, group, hget, .inr ⟨h, access, haccess, hline⟩⟩, hwrites⟩

/-! ## Small frames -/

theorem Frame.isNear_of_slotOffset? {frame : Frame} {slot : Nat} {offset : Int32}
    (hlower : -16 ≤ frame.size.toInt) (hupper : frame.size.toInt + slot < 16)
    (h : frame.slotOffset? slot = some offset) : isNear offset = true := by
  have hoffset := toInt_slotOffset? (by omega) h
  simp only [isNear, Bool.and_eq_true, decide_eq_true_eq]
  omega

theorem Code.isNear_of_round (hround : code.round registers pool = .ok groups)
    (hlower : -16 ≤ code.frame.size.toInt)
    (hupper : code.frame.size.toInt + code.virtuals.length ≤ 16) :
    ∀ group ∈ groups, ∀ access ∈ group.loads ++ group.stores, isNear access.offset = true := by
  intro group hgroup access haccess
  obtain ⟨_, i, hi, _, hslot, hoffset⟩ := Code.spill_reaches hround group hgroup access haccess
  have hlt := Interval.slot_lt ((placement_allocate code pool).exists_slot_lt hi).2 hslot
  rw [Code.frame_renamedIn] at hoffset
  exact Frame.isNear_of_slotOffset? hlower (by omega) hoffset

theorem Code.length_of_round (hround : code.round registers pool = .ok groups) :
    groups.length = code.length := by
  by_cases hspilled : code.spilledIn pool = []
  · rw [round_of_spilledIn_eq_nil registers hspilled] at hround
    cases hround
    rw [List.length_map, length_renamedIn]
  · rw [(lines_of_spill hspilled hround).2.1, length_renamedIn]

/-- **When spill code destroys a pinned register.**  A compiled stream consists of one group for
each line, with an image of the line and spill code around it.  Let a line read a pinned register,
and take the last line in front of it that writes that register.  The spill code between the images
of the two writes the register exactly if it is the return-address register and a distant slot is
moved there.  It does not if the frame has at most sixteen words together with a slot for each
register that is not pinned. -/
theorem compile_writes_pinned_iff {options : Options} {out : Code}
    (hok : (code.compile options).result = .ok out) :
    ∃ groups, (code.compileGroups options).result = .ok groups ∧ out = Code.ofGroups groups ∧
      groups.length = code.length ∧
      (∀ (index : Nat) (group : Group), groups[index]? = some group →
        out[Code.imageOf groups index]? = some group.line) ∧
      ∀ name, Register.isPinned name = true → ∀ index, code.Reads index name →
        ∀ last, code.IsLastWrite name index last →
        (∀ line, line ∈ spillCodeBetween groups last index ↔ ∃ position : Nat,
          out[position]? = some line ∧ (∀ j ∈ last, Code.imageOf groups j < position) ∧
          position < Code.imageOf groups index ∧ ∀ k, position ≠ Code.imageOf groups k) ∧
        ((∃ line ∈ spillCodeBetween groups last index, name ∈ line.destinations) ↔
          name = Register.returnAddress ∧
            ∃ access ∈ accessesBetween groups last index, isNear access.offset = false) ∧
        (-16 ≤ code.frame.size.toInt → code.frame.size.toInt + code.virtuals.length ≤ 16 →
          ∀ line ∈ spillCodeBetween groups last index, name ∉ line.destinations) := by
  obtain ⟨groups, hgroups, hout⟩ := Code.exists_groups hok
  obtain ⟨pool, hpool, hround⟩ := Code.exists_round hgroups
  subst hout
  refine ⟨groups, hgroups, rfl, Code.length_of_round hround,
    fun _ _ hget => Code.getElem?_imageOf hget, ?_⟩
  intro name hpinned index _ last _
  refine ⟨fun line => mem_spillCodeBetween_iff, exists_writes_spillCodeBetween_iff hpinned, ?_⟩
  intro hlower hupper line hline hwrites
  obtain ⟨_, access, haccess, hdistant⟩ :=
    (exists_writes_spillCodeBetween_iff hpinned).mp ⟨line, hline, hwrites⟩
  obtain ⟨group, hgroup, hmem⟩ := mem_groups_of_mem_accessesBetween haccess
  rw [Code.isNear_of_round hround hlower hupper group hgroup access hmem] at hdistant
  cases hdistant

/-- Two registers are spilled to the last near slots, and the return address is still there. -/
theorem compile_writes_pinned_iff_small_frame :
    let code : Code := [.instr .enter [.number 14], .instr .cmpi [.register "a", .number 0],
      .instr .cmpi [.register "b", .number 0], .instr .cmpi [.register "a", .number 1],
      .instr .jr [.register "ra"]]
    let a : Access := ⟨"a", 0, 0, -15⟩
    let b : Access := ⟨"b", 1, 0, -16⟩
    let groups : List Group := [.ofLine (.instr .enter [.number 16]),
      ⟨[a], .instr .cmpi [.register "r0", .number 0], []⟩,
      ⟨[b], .instr .cmpi [.register "r0", .number 0], []⟩,
      ⟨[a], .instr .cmpi [.register "r0", .number 1], []⟩, .ofLine (.instr .jr [.register "ra"])]
    ((code.compile ⟨1, true⟩).result = .ok (Code.ofGroups groups) ∧ code.Reads 4 "ra" ∧
      code.IsLastWrite "ra" 4 none) ∧
    spillCodeBetween groups none 4 = a.load ++ b.load ++ a.load ∧
    ∀ line ∈ spillCodeBetween groups none 4, "ra" ∉ line.destinations := by
  intro code a b groups
  have hok : (code.compile ⟨1, true⟩).result = .ok (Code.ofGroups groups) := by decide +kernel
  have hgroups : (code.compileGroups ⟨1, true⟩).result = .ok groups := by decide +kernel
  have hreads : code.Reads 4 "ra" := by decide
  have hlast : code.IsLastWrite "ra" 4 none := by decide
  obtain ⟨groups', hgroups', _, _, _, hpinned⟩ := compile_writes_pinned_iff hok
  cases hgroups.symm.trans hgroups'
  exact ⟨⟨hok, hreads, hlast⟩, by decide,
    (hpinned "ra" (by decide) 4 hreads none hlast).2.2 (by decide) (by decide)⟩

/-- With two words more in the frame both slots are distant: the return address is overwritten
before it is read. -/
theorem distant_slot_overwrites_returnAddress :
    let code : Code := [.instr .enter [.number 16], .instr .cmpi [.register "a", .number 0],
      .instr .cmpi [.register "b", .number 0], .instr .cmpi [.register "a", .number 1],
      .instr .jr [.register "ra"]]
    let a : Access := ⟨"a", 0, 0, -17⟩
    let b : Access := ⟨"b", 1, 0, -18⟩
    let groups : List Group := [.ofLine (.instr .enter [.number 18]),
      ⟨[a], .instr .cmpi [.register "r0", .number 0], []⟩,
      ⟨[b], .instr .cmpi [.register "r0", .number 0], []⟩,
      ⟨[a], .instr .cmpi [.register "r0", .number 1], []⟩, .ofLine (.instr .jr [.register "ra"])]
    ((code.compileGroups ⟨1, true⟩).result = .ok groups ∧
      (code.compile ⟨1, true⟩).result = .ok (Code.ofGroups groups) ∧ code.Reads 4 "ra" ∧
      code.IsLastWrite "ra" 4 none) ∧
    ¬ ∀ line ∈ spillCodeBetween groups none 4, "ra" ∉ line.destinations := by
  intro code a b groups
  refine ⟨⟨by decide +kernel, by decide +kernel, by decide, by decide⟩, ?_⟩
  decide

end TurtleAlloc
