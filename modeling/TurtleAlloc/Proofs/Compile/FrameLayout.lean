import Mathlib
import TurtleAlloc.Proofs.Compile.Outcome
import TurtleAlloc.Proofs.Spill.Names

/-!
# The frame of a compiled stream

* `Code.lastSlot_spilledIn` — the slots of a round are numbered without gaps, so the last one says
  how many there are.
* `Code.enter_of_round` — the frame grows by exactly one word for each spilled interval.
* `Code.offset_of_round` — every access of a round lies where the slot of its interval does.
* `FrameLayout` — these words lie behind those that the program asked for, one for each spilled
  interval; `compile_frameLayout` says so of the code that is written.
-/

namespace TurtleAlloc

variable {code : Code} {pool registers : Nat} {groups : List Group}

namespace Code

theorem lastSlot_spilledIn (hspilled : code.spilledIn pool ≠ []) :
    lastSlot (code.spilledIn pool) + 1 = (code.spilledIn pool).length := by
  have hpos := List.length_pos_iff.mpr hspilled
  have hlt := lastSlot_lt_of_forall hspilled fun i hi => exists_slot_lt_length hi
  have htop : (code.spilledIn pool).length - 1 ∈
      (code.spilledIn pool).filterMap Interval.slot := by
    rw [(code.perm_slots_spilledIn pool).mem_iff, List.mem_range]
    omega
  obtain ⟨i, hi, hslot⟩ := List.mem_filterMap.mp htop
  have := (lastSlot_spec (code.spilledIn pool)).2 i hi _ hslot
  omega

theorem length_spilledIn_le (code : Code) (pool : Nat) :
    (code.spilledIn pool).length ≤ code.virtuals.length := by
  by_cases hspilled : code.spilledIn pool = []
  · simp [hspilled]
  · rw [← lastSlot_spilledIn hspilled]
    exact lastSlot_lt hspilled

/-- **The leading `ENTER` of a round** asks for one word more for each spilled interval. -/
theorem enter_of_round (hround : code.round registers pool = .ok groups)
    (hspilled : code.spilledIn pool ≠ []) (hslots : code.virtuals.length < 2 ^ 31) :
    ∃ size : Int32, size.toInt = code.frame.size.toInt + (code.spilledIn pool).length ∧
      groups.head? = some (.ofLine (.instr .enter [.number size])) := by
  obtain ⟨henter, hlength, size, hsize, hlines⟩ := lines_of_spill hspilled hround
  have hlast := lastSlot_spilledIn hspilled
  have hle := code.length_spilledIn_le pool
  rw [frame_renamedIn, Frame.sizeWithSlots?_eq_some_iff (by omega)] at hsize
  refine ⟨size, by omega, ?_⟩
  cases hcode : code.renamedIn pool with
  | nil =>
    rw [hcode] at henter
    cases henter
  | cons first rest =>
    rw [hcode] at hlength hlines
    cases groups with
    | nil => cases hlength
    | cons group later =>
      obtain ⟨line, hget, hspill⟩ := hlines 0 group rfl
      cases hget
      rw [List.head?_cons, Line.spill_eq_ofLine rfl rfl hspill]

/-- **Every access of a round** is made for a spilled interval and lies where its slot does. -/
theorem offset_of_round (hround : code.round registers pool = .ok groups)
    (hslots : code.virtuals.length < 2 ^ 31) {group : Group} (hgroup : group ∈ groups)
    {access : Access} (haccess : access ∈ group.loads ++ group.stores) :
    ∃ i ∈ code.spilledIn pool, i.register = access.register ∧ i.slot = some access.slot ∧
      access.offset.toInt = -(code.frame.size.toInt + access.slot + 1) := by
  obtain ⟨_, i, hi, hregister, hslot, hoffset⟩ := spill_reaches hround group hgroup access haccess
  have hlt := Interval.slot_lt (exists_slot_lt_length hi) hslot
  have hle := code.length_spilledIn_le pool
  rw [frame_renamedIn] at hoffset
  exact ⟨i, hi, hregister, hslot, Frame.toInt_slotOffset? (by omega) hoffset⟩

end Code

/-! ## The layout -/

/-- Where the groups of a stream keep some spilled intervals: `offset` says how far from the frame
pointer each of them lies. -/
structure FrameLayout (frame : Frame) (spilled : List Interval) (offset : Interval → Int)
    (groups : List Group) : Prop where
  /-- The frame is entered with a word for each of them, behind those of the program. -/
  enter : ∃ size : Int32, size.toInt = frame.size.toInt + spilled.length ∧
    (Code.ofGroups groups).head? = some (.instr .enter [.number size])
  range : ∀ i ∈ spilled, -(frame.size.toInt + spilled.length) ≤ offset i ∧
    offset i ≤ -(frame.size.toInt + 1)
  inj : ∀ i ∈ spilled, ∀ j ∈ spilled, offset i = offset j → i = j
  /-- The code of each load reads the word of the interval that it is made for. -/
  loads : ∀ group ∈ groups, ∀ a ∈ group.loads, ∃ i ∈ spilled, i.register = a.register ∧
    a.load.move? = some ⟨.load, a.temporaryName, offset i⟩
  /-- The code of each store writes the word of the interval that it is made for. -/
  stores : ∀ group ∈ groups, ∀ a ∈ group.stores, ∃ i ∈ spilled, i.register = a.register ∧
    a.store.move? = some ⟨.store, a.temporaryName, offset i⟩

/-- Where the slot of an interval lies from the frame pointer. -/
def Frame.offsetOf (frame : Frame) (interval : Interval) : Int :=
  -(frame.size.toInt + interval.slot.getD 0 + 1)

/-- **The layout of a round**, if all its slots have offsets of 16 bits. -/
theorem Code.frameLayout_of_round (hround : code.round registers pool = .ok groups)
    (hspilled : code.spilledIn pool ≠ []) (hsize : 0 ≤ code.frame.size.toInt)
    (hroom : code.frame.size.toInt + code.virtuals.length ≤ 32768) :
    FrameLayout code.frame (code.spilledIn pool) code.frame.offsetOf groups := by
  have hslots : code.virtuals.length < 2 ^ 31 := by omega
  have hle := code.length_spilledIn_le pool
  -- what the code of an access moves, whatever its direction
  have hmove : ∀ group ∈ groups, ∀ a ∈ group.loads ++ group.stores, ∃ i ∈ code.spilledIn pool,
      i.register = a.register ∧ ∀ opcode, (slotAccess opcode a.temporaryName a.offset).move? =
        some ⟨opcode, a.temporaryName, code.frame.offsetOf i⟩ := by
    intro group hgroup a ha
    obtain ⟨i, hi, hregister, hslot, hoffset⟩ := offset_of_round hround hslots hgroup ha
    have hlt := Interval.slot_lt (exists_slot_lt_length hi) hslot
    have hsame : a.offset.toInt.bmod 65536 = code.frame.offsetOf i := by
      rw [Frame.offsetOf, hslot, Option.getD_some, hoffset]
      exact Int.bmod_eq_of_le (by omega) (by omega)
    refine ⟨i, hi, hregister, fun opcode => ?_⟩
    rw [move?_slotAccess, hsame]
  constructor
  case enter =>
    obtain ⟨size, hsize, hhead⟩ := enter_of_round hround hspilled hslots
    refine ⟨size, hsize, ?_⟩
    obtain ⟨later, rfl⟩ := List.head?_eq_some_iff.mp hhead
    rfl
  case range =>
    intro i hi
    obtain ⟨slot, hlt, hslot⟩ := exists_slot_lt_length hi
    rw [Frame.offsetOf, hslot, Option.getD_some]
    omega
  case inj =>
    intro i hi j hj heq
    obtain ⟨slot, _, hslot⟩ := exists_slot_lt_length hi
    obtain ⟨slot', _, hslot'⟩ := exists_slot_lt_length hj
    simp only [Frame.offsetOf, hslot, hslot', Option.getD_some] at heq
    have hsame : slot = slot' := by omega
    exact (placement_allocate code pool).slot_inj i (List.mem_filter.mp hi).1 j
      (List.mem_filter.mp hj).1 slot hslot (hsame ▸ hslot')
  case loads =>
    intro group hgroup a ha
    obtain ⟨i, hi, hregister, hmove⟩ := hmove group hgroup a (List.mem_append_left _ ha)
    exact ⟨i, hi, hregister, hmove .load⟩
  case stores =>
    intro group hgroup a ha
    obtain ⟨i, hi, hregister, hmove⟩ := hmove group hgroup a (List.mem_append_right _ ha)
    exact ⟨i, hi, hregister, hmove .store⟩

/-- **The frame of a compiled stream.**  A compiled stream consists of the groups of the last round
that is tried.  If that round spills, and the frame has at most `2 ^ 15` words together with one for
each register that is not pinned, then the stream enters a frame with one word more for each spilled
interval.  All code for one interval moves the same one of these words, and code for different
intervals different ones. -/
theorem compile_frameLayout {options : Options} {out : Code}
    (hok : (code.compile options).result = .ok out) (hsize : 0 ≤ code.frame.size.toInt)
    (hroom : code.frame.size.toInt + code.virtuals.length ≤ 32768) :
    ∃ pool groups, pool ≤ options.registers ∧ code.Tries options.registers pool ∧
      code.round options.registers pool = .ok groups ∧ out = Code.ofGroups groups ∧
      (code.spilledIn pool ≠ [] → code.opensWithEnter = true ∧
        ∃ offset, FrameLayout code.frame (code.spilledIn pool) offset groups) := by
  obtain ⟨groups, hgroups, hout⟩ := Code.exists_groups hok
  obtain ⟨pool, hpool, htries, hround⟩ := Code.exists_last_round hgroups
  refine ⟨pool, groups, hpool, htries, hround, hout,
    fun hspilled => ⟨?_, code.frame.offsetOf, ?_⟩⟩
  · rw [← Code.opensWithEnter_renamedIn code pool]
    exact (Code.lines_of_spill hspilled hround).1
  · exact Code.frameLayout_of_round hround hspilled hsize hroom

/-- Two registers are spilled in the second round: one lies in the last near word, the other in the
first distant one. -/
theorem compile_frameLayout_two_words :
    let code : Code := [.instr .enter [.number 15], .instr .li [.register "a", .number 0],
      .instr .cmpi [.register "b", .number 0], .instr .cmpi [.register "a", .number 1]]
    let a : Access := ⟨"a", 0, 0, -16⟩
    let b : Access := ⟨"b", 1, 0, -17⟩
    let groups : List Group := [.ofLine (.instr .enter [.number 17]),
      ⟨[], .instr .li [.register "r0", .number 0], [a]⟩,
      ⟨[b], .instr .cmpi [.register "r0", .number 0], []⟩,
      ⟨[a], .instr .cmpi [.register "r0", .number 1], []⟩]
    ((code.compile ⟨1, true⟩).result = .ok (Code.ofGroups groups) ∧
      0 ≤ code.frame.size.toInt ∧ code.frame.size.toInt + code.virtuals.length ≤ 32768) ∧
    (code.spilledIn 0).length = 2 ∧
      ∃ offset, FrameLayout ⟨15⟩ (code.spilledIn 0) offset groups := by
  intro code a b groups
  have hok : (code.compile ⟨1, true⟩).result = .ok (Code.ofGroups groups) := by decide +kernel
  have hsize : 0 ≤ code.frame.size.toInt := by decide
  have hroom : code.frame.size.toInt + code.virtuals.length ≤ 32768 := by decide +kernel
  have hround : code.round 1 0 = .ok groups := by decide +kernel
  obtain ⟨pool, _, hpool, htries, hround', _, hlayout⟩ := compile_frameLayout hok hsize hroom
  obtain rfl : pool = 0 :=
    htries.eq_of_ok (by decide +kernel) hpool (Nat.zero_le _) hround' hround
  cases hround.symm.trans hround'
  exact ⟨⟨hok, hsize, hroom⟩, by decide +kernel, (hlayout (by decide +kernel)).2⟩

end TurtleAlloc
