import Mathlib
import TurtleAlloc.Proofs.Compile.Rounds
import TurtleAlloc.Proofs.Spill.Demand

/-!
# When compilation succeeds

* `Code.spilledIn_eq_nil_iff` — a round spills nothing exactly if its pool is as large as the
  pressure.
* `Code.Starves` — a line reads more registers than there are, or writes one where there is none.
* `Code.overdraws_of_round_error` — a round of a stream with a frame fails only for want of
  temporaries.
* `Code.round_ne_ok_of_starves`, `Code.starves_of_overdraws` — no round of a starving stream
  succeeds, and a stream whose last round fails is starving.
* `compile_outcome` — what compilation answers, for every number of registers.
-/

namespace TurtleAlloc

variable {code : Code} {pool registers : Nat}

/-! ## Whether a round spills -/

theorem Code.spilledIn_eq_nil_iff (code : Code) (pool : Nat) :
    code.spilledIn pool = [] ↔ pressure code.liveIntervals ≤ pool := by
  unfold spilledIn
  constructor
  · intro hnil
    by_contra hlt
    obtain ⟨position, number, hhome⟩ := exists_slot_of_lt_pressure (Nat.lt_of_not_le hlt)
    obtain ⟨interval, _, hwaiting, hresult⟩ := exists_waiting_of_home? hhome
    have hspilled : (interval.keepIn (.slot number)).isSpilled = true := by
      simp [Interval.isSpilled, Interval.keepIn, hwaiting]
    have hmem' := List.mem_filter.mpr ⟨List.mem_of_getElem? hresult, hspilled⟩
    rw [hnil] at hmem'
    cases hmem'
  · intro hle
    rw [List.filter_eq_nil_iff]
    intro i hi hspilled
    simp only [Interval.isSpilled, Bool.and_eq_true] at hspilled
    obtain ⟨slot, hslot⟩ := Option.isSome_iff_exists.mp hspilled.2
    obtain ⟨position, _, hhome⟩ := exists_home_slot hi hslot
    exact home?_ne_slot_of_pressure_le
      (fun i hi _ => Code.start_lt_stop_of_mem_liveIntervals hi) hle position slot hhome

/-! ## Why a round fails -/

namespace Code

@[simp] theorem opensWithEnter_renamedIn (code : Code) (pool : Nat) :
    (code.renamedIn pool).opensWithEnter = code.opensWithEnter := by
  rcases code with _ | ⟨line, rest⟩
  · rfl
  · exact opensWithEnter_cons_mapRegisters _ line rest _

@[simp] theorem frame_renamedIn (code : Code) (pool : Nat) :
    (code.renamedIn pool).frame = code.frame := by
  rcases code with _ | ⟨line, rest⟩
  · rfl
  · exact frame_cons_mapRegisters _ line rest _

/-- The frame of a stream has room for a slot of each register that is not pinned. -/
def HasRoom (code : Code) : Prop :=
  code.virtuals.length < 2 ^ 31 ∧ code.frame.size.toInt + code.virtuals.length < 2 ^ 31

theorem lastSlot_lt (hspilled : code.spilledIn pool ≠ []) :
    lastSlot (code.spilledIn pool) < code.virtuals.length := by
  refine lastSlot_lt_of_forall hspilled fun i hi => ?_
  exact ((placement_allocate code pool).exists_slot_lt hi).2

theorem HasRoom.exists_size (hroom : code.HasRoom) (hspilled : code.spilledIn pool ≠ []) :
    ∃ size, code.frame.sizeWithSlots? (lastSlot (code.spilledIn pool)) = some size := by
  have hlast := lastSlot_lt hspilled
  have hlower := code.frame.size.le_toInt
  obtain ⟨hslots, hframe⟩ := hroom
  refine ⟨Int32.ofInt (code.frame.size.toInt + lastSlot (code.spilledIn pool) + 1), ?_⟩
  rw [Frame.sizeWithSlots?_eq_some_iff (by omega), Int32.toInt_ofInt_of_le (by omega) (by omega)]

/-- **A round of a stream with a frame fails only for want of temporaries.** -/
theorem overdraws_of_round_error (henter : code.opensWithEnter = true) (hroom : code.HasRoom)
    (hpool : pool ≤ registers) (havoids : code.Avoids registers)
    (hspilled : code.spilledIn pool ≠ []) {error : SpillError}
    (h : code.round registers pool = .error error) :
    error = .outOfTemporaries ∧
      (code.renamedIn pool).Overdraws (code.spilledIn pool) (reserved registers pool) := by
  have hplan := spillPlan_round hpool havoids hroom.1
  have haccommodates : (code.renamedIn pool).Accommodates (code.spilledIn pool) := by
    refine ⟨by rw [opensWithEnter_renamedIn, henter], hplan.slot, ?_⟩
    rw [frame_renamedIn]
    exact hroom.exists_size hspilled
  exact overdraws_of_spill_error hspilled hplan.toSpillable haccommodates h

end Code

/-! ## Streams that need more registers -/

/-- The registers that a line reads and that are not pinned, each once. -/
def Line.virtualSources (line : Line) : List String :=
  (line.sources.filter fun name => !Register.isPinned name).dedup

theorem Line.mem_virtualSources {line : Line} {name : String} :
    name ∈ line.virtualSources ↔ name ∈ line.sources ∧ Register.isPinned name = false := by
  simp [virtualSources]

namespace Code

/-- A line reads more registers that are not pinned than there are to allocate, or it writes one
and there are none. -/
def Starves (code : Code) (registers : Nat) : Prop :=
  (∃ line ∈ code, registers < line.virtualSources.length) ∨
    registers = 0 ∧ ∃ line ∈ code, ∃ name ∈ line.destinations, Register.isPinned name = false

instance (code : Code) (registers : Nat) : Decidable (code.Starves registers) :=
  inferInstanceAs (Decidable (_ ∨ _ ∧ _))

theorem starves_of_overdraws (havoids : code.Avoids registers)
    (h : (code.renamedIn 0).Overdraws (code.spilledIn 0) (reserved registers 0)) :
    code.Starves registers := by
  obtain ⟨index, _, hget, h⟩ := h
  rw [renamedIn, getElem?_assign, Option.map_eq_some_iff] at hget
  obtain ⟨line, hline, rfl⟩ := hget
  have hplacement := placement_allocate code 0
  have hmem : ∀ i ∈ (code.spilledIn 0).filter (fun i => i.contains index),
      i.register ∈ code.names ∧ Register.isPinned i.register = false := fun i hi =>
    mem_virtuals.mp (mem_virtuals_of_mem_spilledIn (List.mem_filter.mp hi).1)
  rcases h with hlt | ⟨hnil, i, hi, hwrites⟩
  · rw [length_reserved] at hlt
    refine .inl ⟨line, List.mem_of_getElem? hline, ?_⟩
    rw [Line.sources_mapRegisters] at hlt
    set read := ((code.spilledIn 0).filter fun i => i.contains index).filter fun i =>
      i.register ∈ line.sources.map (physicalAt (allocate 0 code.liveIntervals).value index)
    have hnodup : (read.map Interval.register).Nodup := by
      have hsub : read.Sublist (allocate 0 code.liveIntervals).value :=
        (List.filter_sublist.trans List.filter_sublist).trans List.filter_sublist
      exact (hsub.map _).nodup hplacement.nodup
    have hsub : read.map Interval.register ⊆ line.virtualSources := by
      intro name hname
      obtain ⟨i, hi, rfl⟩ := List.mem_map.mp hname
      obtain ⟨hi, hreads⟩ := List.mem_filter.mp hi
      obtain ⟨hnames, hunpinned⟩ := hmem i hi
      refine Line.mem_virtualSources.mpr ⟨?_, hunpinned⟩
      exact hplacement.mem_of_mem_map havoids (Nat.zero_le _) hline
        (fun _ => Line.mem_referenced_of_mem_sources) hnames (of_decide_eq_true hreads)
    have hle := (hnodup.subperm hsub).length_le
    rw [List.length_map] at hle
    omega
  · have hzero : registers = 0 := by
      have hlength := congrArg List.length hnil
      simpa using hlength
    obtain ⟨hnames, hunpinned⟩ := hmem i hi
    rw [Line.destinations_mapRegisters] at hwrites
    refine .inr ⟨hzero, line, List.mem_of_getElem? hline, i.register, ?_, hunpinned⟩
    exact hplacement.mem_of_mem_map havoids (Nat.zero_le _) hline
      (fun _ => Line.mem_referenced_of_mem_destinations) hnames hwrites

/-- A register that is not pinned is spilled or held at each line that names it.  If it is spilled,
the renamed line names it too. -/
theorem spilled_or_held (pool : Nat) {index : Nat} {line : Line} (hget : code[index]? = some line)
    {name : String} (hname : name ∈ line.referenced) (hunpinned : Register.isPinned name = false) :
    (∃ i ∈ (code.spilledIn pool).filter fun i => i.contains index, i.register = name ∧
      physicalAt (allocate pool code.liveIntervals).value index name = name) ∨
    ∃ i ∈ (allocate pool code.liveIntervals).value, i.register = name ∧
      i.contains index = true ∧ ∃ number < pool, i.physical = some (Register.physical number) := by
  have hplacement := placement_allocate code pool
  obtain ⟨i, hi, rfl, hcontains, hlocation⟩ := hplacement.exists_mem_allocated hget hname
  cases hplacement.placed i hi with
  | pinned hpinned => simp [hunpinned] at hpinned
  | register _ number hnumber hphysical _ =>
    exact .inr ⟨i, hi, rfl, hcontains, number, hnumber, hphysical⟩
  | slot _ number _ hphysical hslot =>
    have hspilled : i ∈ code.spilledIn pool :=
      List.mem_filter.mpr ⟨hi, by simp [Interval.isSpilled, hphysical, hslot]⟩
    refine .inl ⟨i, List.mem_filter.mpr ⟨hspilled, hcontains⟩, rfl, ?_⟩
    rw [hlocation, Interval.location, hphysical, Option.getD_none]

theorem length_held_le (code : Code) (index : Nat) {names : List String} (hnodup : names.Nodup)
    (h : ∀ name ∈ names, ∃ i ∈ (allocate pool code.liveIntervals).value, i.register = name ∧
      i.contains index = true ∧ ∃ number < pool, i.physical = some (Register.physical number)) :
    names.length ≤ pool := by
  have hhome : ∀ name ∈ names, ∃ position,
      (allocate pool code.liveIntervals).value[position]?.map Interval.register = some name ∧
      ∃ before number, ⟨position, before⟩ ∈ Candidate.ofIntervals code.liveIntervals ∧
        before.contains index = true ∧
        (Scan.ofIntervals pool code.liveIntervals).home? position = some (.register number) := by
    intro name hname
    obtain ⟨i, hi, rfl, hcontains, number, _, hphysical⟩ := h name hname
    obtain ⟨position, before, hmem, hget, rfl, hhome⟩ := exists_home_register hi hphysical
    refine ⟨position, by rw [hget, Option.map_some], before, number, hmem, ?_, hhome⟩
    rw [← Interval.contains_keepIn before (.register number)]
    exact hcontains
  choose! position hposition hheld using hhome
  have hpositions : (names.map position).Nodup := by
    refine List.Nodup.map_on ?_ hnodup
    intro a ha b hb heq
    have hname := hposition a ha
    rw [heq, hposition b hb] at hname
    simpa using hname.symm
  rw [← List.length_map position]
  refine length_le_pool code.liveIntervals index hpositions ?_
  intro p hp
  obtain ⟨name, hname, rfl⟩ := List.mem_map.mp hp
  exact hheld name hname

section Success

variable {groups : List Group} {index : Nat} {line : Line} {name : String}
  (hpool : pool ≤ registers) (havoids : code.Avoids registers)
  (hslots : code.virtuals.length < 2 ^ 31) (hok : code.round registers pool = .ok groups)
  (hget : code[index]? = some line)

include hpool havoids hslots hok hget

theorem not_exceeds_of_round_ok :
    ¬ Exceeds (reserved registers pool) ((code.spilledIn pool).filter fun i => i.contains index)
      (line.mapRegisters (physicalAt (allocate pool code.liveIntervals).value index)) := by
  have hplan := spillPlan_round hpool havoids hslots
  have hrenamed : (code.renamedIn pool)[index]? = some (line.mapRegisters
      (physicalAt (allocate pool code.liveIntervals).value index)) := by
    rw [renamedIn, getElem?_assign, hget, Option.map_some]
  exact fun h => not_overdraws_of_spill_ok hplan.toSpillable hok ⟨index, _, hrenamed, h⟩

theorem length_virtualSources_le : line.virtualSources.length ≤ registers := by
  have hexceeds := not_exceeds_of_round_ok hpool havoids hslots hok hget
  set spilled := ((code.spilledIn pool).filter fun i => i.contains index).filter fun i =>
    i.register ∈ (line.mapRegisters
      (physicalAt (allocate pool code.liveIntervals).value index)).sources
  have hle : spilled.length ≤ registers - pool := by
    rw [← length_reserved]
    exact Nat.le_of_not_lt fun h => hexceeds (.inl h)
  -- of the registers that the line reads, some are spilled and the others are held
  let isSpilled (name : String) : Bool := name ∈ spilled.map Interval.register
  have hspilled : (line.virtualSources.filter isSpilled).length ≤ spilled.length := by
    rw [← List.length_map Interval.register]
    refine (((List.nodup_dedup _).filter _).subperm ?_).length_le
    exact fun name hname => of_decide_eq_true (List.mem_filter.mp hname).2
  have hheld : (line.virtualSources.filter fun name => !isSpilled name).length ≤ pool := by
    refine length_held_le code index ((List.nodup_dedup _).filter _) ?_
    intro name hname
    obtain ⟨hname, hnot⟩ := List.mem_filter.mp hname
    obtain ⟨hreads, hunpinned⟩ := Line.mem_virtualSources.mp hname
    rcases spilled_or_held pool hget (Line.mem_referenced_of_mem_sources hreads) hunpinned with
      ⟨i, hi, rfl, hsame⟩ | hheld
    · have hi' : i ∈ spilled := by
        refine List.mem_filter.mpr ⟨hi, decide_eq_true ?_⟩
        rw [Line.sources_mapRegisters]
        exact List.mem_map.mpr ⟨i.register, hreads, hsame⟩
      have hspilled : isSpilled i.register = true := decide_eq_true (List.mem_map_of_mem hi')
      rw [hspilled] at hnot
      cases hnot
    · exact hheld
  have hsplit := List.length_eq_length_filter_add (l := line.virtualSources) isSpilled
  omega

theorem isPinned_of_mem_destinations (hzero : registers = 0) (hname : name ∈ line.destinations) :
    Register.isPinned name = true := by
  by_contra hunpinned
  rw [Bool.not_eq_true] at hunpinned
  refine not_exceeds_of_round_ok hpool havoids hslots hok hget (.inr ⟨?_, ?_⟩)
  · exact List.eq_nil_of_length_eq_zero (by rw [length_reserved]; omega)
  · rcases spilled_or_held pool hget (Line.mem_referenced_of_mem_destinations hname) hunpinned with
      ⟨i, hi, rfl, hsame⟩ | ⟨_, _, _, _, number, hnumber, _⟩
    · refine ⟨i, hi, ?_⟩
      rw [Line.destinations_mapRegisters]
      exact List.mem_map.mpr ⟨i.register, hname, hsame⟩
    · omega

end Success

/-- **No round of a starving stream succeeds**, however the registers are split. -/
theorem round_ne_ok_of_starves (hstarves : code.Starves registers) (hpool : pool ≤ registers)
    (havoids : code.Avoids registers) (hslots : code.virtuals.length < 2 ^ 31)
    (groups : List Group) : code.round registers pool ≠ .ok groups := by
  intro hok
  rcases hstarves with ⟨line, hmem, hlt⟩ | ⟨hzero, line, hmem, name, hname, hunpinned⟩
  · obtain ⟨index, hget⟩ := List.mem_iff_getElem?.mp hmem
    exact Nat.not_le_of_lt hlt (length_virtualSources_le hpool havoids hslots hok hget)
  · obtain ⟨index, hget⟩ := List.mem_iff_getElem?.mp hmem
    rw [isPinned_of_mem_destinations hpool havoids hslots hok hget hzero hname] at hunpinned
    cases hunpinned

/-! ## What compilation answers -/

theorem ofGroups_map_ofLine (code : Code) : ofGroups (code.map .ofLine) = code := by
  rw [ofGroups, List.flatMap_map]
  exact List.flatMap_singleton' code

theorem round_of_pressure_le (registers : Nat) (h : pressure code.liveIntervals ≤ pool) :
    code.round registers pool = .ok ((code.renamedIn pool).map .ofLine) :=
  round_of_spilledIn_eq_nil registers ((code.spilledIn_eq_nil_iff pool).mpr h)

theorem round_of_not_opensWithEnter (registers : Nat) (henter : code.opensWithEnter = false)
    (h : pool < pressure code.liveIntervals) :
    code.round registers pool = .error .missingLeadingEnter := by
  have hspilled : code.spilledIn pool ≠ [] :=
    fun hnil => Nat.not_le_of_lt h ((code.spilledIn_eq_nil_iff pool).mp hnil)
  rw [round, result_spill hspilled, opensWithEnter_renamedIn, henter]
  rfl

/-- The first round decides unless it runs short of temporaries. -/
theorem result_compileFrom_of_first {registers : Nat}
    (h : code.round registers registers ≠ .error .outOfTemporaries) :
    (code.compileFrom code.liveIntervals registers (reserved registers registers)).result =
      match code.round registers registers with
      | .ok groups => .ok groups
      | .error cause => .error (.spill cause) := by
  obtain ⟨last, hlast, hbefore, _, hresult⟩ := code.compileFrom_outcome (Nat.le_refl registers)
  have heq : last = registers := by
    by_contra hne
    exact h (hbefore registers (by omega) (Nat.le_refl _))
  subst heq
  rw [hresult]
  rcases hround : code.round last last with cause | groups
  · cases cause with
    | outOfTemporaries => exact absurd hround h
    | missingLeadingEnter => rfl
    | missingSpillSlot => rfl
    | overflow => rfl
  · rfl

/-- With a frame, and with registers to spill in every round, it only matters whether the stream
starves. -/
theorem compileFrom_of_lt_pressure (henter : code.opensWithEnter = true) (hroom : code.HasRoom)
    (havoids : code.Avoids registers) (h : registers < pressure code.liveIntervals) :
    (code.Starves registers ∧
      (code.compileFrom code.liveIntervals registers (reserved registers registers)).result =
        .error .insufficientRegisters) ∨
    (¬ code.Starves registers ∧ ∃ groups,
      (code.compileFrom code.liveIntervals registers (reserved registers registers)).result =
        .ok groups) := by
  obtain ⟨last, hlast, _, hzero, hresult⟩ := code.compileFrom_outcome (Nat.le_refl registers)
  have hspilled : code.spilledIn last ≠ [] := by
    intro hnil
    have := (code.spilledIn_eq_nil_iff last).mp hnil
    omega
  rcases hround : code.round registers last with error | groups
  · obtain ⟨rfl, hoverdraws⟩ :=
      overdraws_of_round_error henter hroom hlast havoids hspilled hround
    cases hzero hround
    rw [hround] at hresult
    exact .inl ⟨starves_of_overdraws havoids hoverdraws, hresult⟩
  · rw [hround] at hresult
    refine .inr ⟨fun hstarves => ?_, groups, hresult⟩
    exact round_ne_ok_of_starves hstarves hlast havoids hroom.1 groups hround

end Code

/-- **The exact outcome of compilation.**  From `2 ^ 60` registers on it refuses.  Below, let the
pressure be the largest number of registers, pinned ones apart, whose live intervals contain a
common line.  A pressure within the number of registers leads to a stream of the same length.
Otherwise a stream that opens no frame is refused, and one that opens a frame is refused exactly if
it starves. -/
theorem compile_outcome (options : Options) (code : Code)
    (hlabels : Code.LabelsAccepted options code) (havoids : code.Avoids options.registers)
    (hroom : code.opensWithEnter = true → code.HasRoom) :
    (poolLimit ≤ options.registers → (code.compile options).result = .error .poolTooLarge) ∧
    (options.registers < poolLimit →
      (pressure code.liveIntervals ≤ options.registers →
        ∃ out, (code.compile options).result = .ok out ∧ out.length = code.length) ∧
      (options.registers < pressure code.liveIntervals → code.opensWithEnter = false →
        (code.compile options).result = .error (.spill .missingLeadingEnter)) ∧
      (options.registers < pressure code.liveIntervals → code.opensWithEnter = true →
        ((code.compile options).result = .error .insufficientRegisters ↔
          code.Starves options.registers) ∧
        (¬ code.Starves options.registers → ∃ out, (code.compile options).result = .ok out))) ∧
    (CompileError.spill .missingLeadingEnter).message =
      "Register allocation failed: missing leading enter" ∧
    CompileError.insufficientRegisters.message =
      "Register allocation failed: insufficient physical registers" := by
  refine ⟨?_, ?_, by decide, by decide⟩
  · intro hlimit
    rw [Code.result_compile hlabels, if_pos hlimit]
  intro hlimit
  rw [Code.result_compile hlabels, if_neg (Nat.not_le_of_lt hlimit)]
  refine ⟨?_, ?_, ?_⟩
  · intro hpressure
    have hround := Code.round_of_pressure_le options.registers hpressure
    rw [Code.result_compileFrom_of_first (by simp [hround]), hround]
    refine ⟨_, rfl, ?_⟩
    rw [Code.ofGroups_map_ofLine, Code.length_renamedIn]
  · intro hpressure henter
    have hround := Code.round_of_not_opensWithEnter options.registers henter hpressure
    rw [Code.result_compileFrom_of_first (by simp [hround]), hround]
    rfl
  · intro hpressure henter
    rcases Code.compileFrom_of_lt_pressure henter (hroom henter) havoids hpressure with
      ⟨hstarves, hresult⟩ | ⟨hstarves, groups, hresult⟩
    · rw [hresult]
      exact ⟨⟨fun _ => hstarves, fun _ => rfl⟩, fun hnot => absurd hstarves hnot⟩
    · rw [hresult]
      exact ⟨⟨nofun, fun h => absurd h hstarves⟩, fun _ => ⟨_, rfl⟩⟩

/-- Four registers are in use at once, and a line reads two of them: two registers are enough, one
is not. -/
theorem compile_outcome_starving :
    let code : Code := [.instr .enter [.number 15], .instr .li [.register "a", .number 1],
      .instr .li [.register "b", .number 2], .instr .li [.register "c", .number 3],
      .instr .add [.register "d", .register "a", .register "b"],
      .instr .add [.register "sp", .register "d", .register "c"]]
    (code.Avoids 2 ∧ code.HasRoom ∧ pressure code.liveIntervals = 4) ∧
      (code.compile ⟨1, true⟩).result = .error .insufficientRegisters ∧
      ∃ out, (code.compile ⟨2, true⟩).result = .ok out := by
  intro code
  have havoids : code.Avoids 2 := by decide
  have hroom : code.HasRoom := ⟨by decide, by decide⟩
  have hpressure : pressure code.liveIntervals = 4 := by decide +kernel
  have hlabels : ∀ registers, Code.LabelsAccepted ⟨registers, true⟩ code := fun _ _ => ⟨_, rfl⟩
  have hone := (compile_outcome ⟨1, true⟩ code (hlabels 1)
    (fun number h => havoids number (Nat.lt_succ_of_lt h)) fun _ => hroom).2.1 (by decide)
  have htwo := (compile_outcome ⟨2, true⟩ code (hlabels 2) havoids fun _ => hroom).2.1 (by decide)
  refine ⟨⟨havoids, hroom, hpressure⟩, ?_, ?_⟩
  · exact (hone.2.2 (by rw [hpressure]; decide) rfl).1.mpr (by decide)
  · exact (htwo.2.2 (by rw [hpressure]; decide) rfl).2 (by decide)

/-- The empty stream needs no register, but it is refused if there are too many of them. -/
theorem compile_nil_of_poolLimit :
    let options : Options := ⟨2 ^ 60, true⟩
    let code : Code := []
    (Code.LabelsAccepted options code ∧ code.Avoids options.registers ∧
      code.opensWithEnter = false ∧ pressure code.liveIntervals ≤ options.registers) ∧
    ¬ ∃ out, (code.compile options).result = .ok out ∧ out.length = code.length := by
  intro options code
  refine ⟨⟨fun _ => ⟨_, rfl⟩, fun number _ => List.not_mem_nil, rfl, Nat.zero_le _⟩, ?_⟩
  rintro ⟨out, hok, _⟩
  cases hok

end TurtleAlloc
