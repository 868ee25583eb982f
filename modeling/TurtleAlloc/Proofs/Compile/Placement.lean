import Mathlib
import TurtleAlloc.Compile
import TurtleAlloc.Proofs.Allocation.Sharing
import TurtleAlloc.Proofs.Spill.Simulation

/-!
# Where the registers of a stream are kept

* `Interval.Placed` — what allocation makes of one live interval: pinned ones stay, the others get
  a register of the pool or a slot.
* `Placement` — the allocated live intervals of a stream as a whole.
* `Interval.location` — the name under which a register is found in the renamed stream; at any line
  the locations of the registers in use are told apart (`Placement.location_inj`).
* `Placement.spillPlan` — the spilled registers of the renamed stream can be given to `Code.spill`.
-/

namespace TurtleAlloc

/-- The registers of a stream that are not pinned, each once. -/
def Code.virtuals (code : Code) : List String :=
  (code.names.filter fun name => !Register.isPinned name).dedup

theorem Code.mem_virtuals {code : Code} {name : String} :
    name ∈ code.virtuals ↔ name ∈ code.names ∧ Register.isPinned name = false := by
  simp [virtuals]

/-- No register of a stream has the name of one of the allocatable ones. -/
def Code.Avoids (code : Code) (registers : Nat) : Prop :=
  ∀ number < registers, Register.physical number ∉ code.names

instance (code : Code) (registers : Nat) : Decidable (code.Avoids registers) :=
  inferInstanceAs (Decidable (∀ number < registers, _))

namespace Interval

/-- The name under which a register is found once allocated registers are renamed. -/
def location (interval : Interval) : String := interval.physical.getD interval.register

/-- The place of an interval after allocation. -/
inductive Placed (pool slots : Nat) (interval : Interval) : Prop where
  | pinned (hpinned : Register.isPinned interval.register = true)
      (hphysical : interval.physical = some interval.register) (hslot : interval.slot = none)
  | register (hunpinned : Register.isPinned interval.register = false) (number : Nat)
      (hnumber : number < pool) (hphysical : interval.physical = some (Register.physical number))
      (hslot : interval.slot = none)
  | slot (hunpinned : Register.isPinned interval.register = false) (number : Nat)
      (hnumber : number < slots) (hphysical : interval.physical = none)
      (hslot : interval.slot = some number)

@[simp] theorem register_keepIn (interval : Interval) (home : Home) :
    (interval.keepIn home).register = interval.register := by
  cases home <;> rfl

@[simp] theorem contains_keepIn (interval : Interval) (home : Home) (index : Nat) :
    (interval.keepIn home).contains index = interval.contains index := by
  cases home <;> rfl

end Interval

/-- The live intervals of a stream after allocation. -/
structure Placement (code : Code) (pool : Nat) (allocated : List Interval) : Prop where
  nodup : (allocated.map Interval.register).Nodup
  mem_names : ∀ i ∈ allocated, i.register ∈ code.names
  contains : ∀ (index : Nat) (line : Line), code[index]? = some line → ∀ name ∈ line.referenced,
    ∃ i ∈ allocated, i.register = name ∧ i.contains index = true
  placed : ∀ i ∈ allocated, i.Placed pool code.virtuals.length
  exclusive : ∀ i ∈ allocated, ∀ j ∈ allocated, ∀ number,
    i.physical = some (Register.physical number) → j.physical = some (Register.physical number) →
    i.overlaps j = true → i = j
  slot_inj : ∀ i ∈ allocated, ∀ j ∈ allocated, ∀ slot, i.slot = some slot → j.slot = some slot →
    i = j

variable {code : Code} {pool : Nat} {allocated : List Interval} {i j : Interval} {index : Nat}

/-! ## The placement that allocation finds -/

theorem Code.physical_eq_none_iff (h : i ∈ code.liveIntervals) :
    i.physical = none ↔ Register.isPinned i.register = false := by
  rw [code.covers_liveIntervals.physical i h]
  split_ifs with hpinned <;> simp [hpinned]

theorem length_ofIntervals_le (code : Code) :
    (Candidate.ofIntervals code.liveIntervals).length ≤ code.virtuals.length := by
  have hlength : (Candidate.ofIntervals code.liveIntervals).length =
      ((code.liveIntervals.filter fun i => i.physical.isNone).map Interval.register).length := by
    rw [(Candidate.ofIntervals_perm _).length_eq, List.length_map,
      ← Candidate.map_interval_waiting, List.length_map]
  have hnodup : ((code.liveIntervals.filter fun i => i.physical.isNone).map
      Interval.register).Nodup :=
    (List.filter_sublist.map _).nodup code.covers_liveIntervals.nodup
  have hsub : (code.liveIntervals.filter fun i => i.physical.isNone).map Interval.register ⊆
      code.virtuals := by
    intro name hname
    obtain ⟨i, hi, rfl⟩ := List.mem_map.mp hname
    obtain ⟨hmem, hnone⟩ := List.mem_filter.mp hi
    have hunpinned := (Code.physical_eq_none_iff hmem).mp (Option.isNone_iff_eq_none.mp hnone)
    obtain ⟨line, hget, hreferenced⟩ :=
      Code.mem_references.mp (code.covers_liveIntervals.start_mem i hmem)
    exact Code.mem_virtuals.mpr
      ⟨Code.mem_names.mpr ⟨i.start, line, hget, hreferenced⟩, hunpinned⟩
  rw [hlength]
  exact (hnodup.subperm hsub).length_le

theorem exists_before (h : i ∈ (allocate pool code.liveIntervals).value) :
    ∃ position before, code.liveIntervals[position]? = some before ∧
      (allocate pool code.liveIntervals).value[position]? = some i ∧
      (Register.isPinned before.register = true ∧ i = before ∨
        Register.isPinned before.register = false ∧ ∃ home,
          (Scan.ofIntervals pool code.liveIntervals).home? position = some home ∧
          i = before.keepIn home) := by
  obtain ⟨position, hget⟩ := List.mem_iff_getElem?.mp h
  have hlt := (List.getElem?_eq_some_iff.mp hget).1
  rw [length_allocate] at hlt
  have hbefore : code.liveIntervals[position]? = some code.liveIntervals[position] :=
    List.getElem?_eq_getElem hlt
  refine ⟨position, _, hbefore, hget, ?_⟩
  have hphysical := Code.physical_eq_none_iff (List.mem_of_getElem? hbefore)
  cases hpinned : Register.isPinned code.liveIntervals[position].register with
  | true =>
    rw [hpinned] at hphysical
    rw [getElem?_allocate_of_placed hbefore (by simp [hphysical])] at hget
    exact .inl ⟨rfl, by simpa using hget.symm⟩
  | false =>
    obtain ⟨home, hhome, hresult⟩ :=
      getElem?_allocate_of_waiting pool hbefore (hphysical.mpr hpinned)
    rw [hget] at hresult
    exact .inr ⟨rfl, home, hhome, by simpa using hresult⟩

theorem exists_home_register {number : Nat} (h : i ∈ (allocate pool code.liveIntervals).value)
    (hphysical : i.physical = some (Register.physical number)) :
    ∃ position before, ⟨position, before⟩ ∈ Candidate.ofIntervals code.liveIntervals ∧
      (allocate pool code.liveIntervals).value[position]? = some i ∧
      i = before.keepIn (.register number) ∧
      (Scan.ofIntervals pool code.liveIntervals).home? position = some (.register number) := by
  obtain ⟨position, before, hbefore, hget, ⟨hpinned, rfl⟩ | ⟨hunpinned, home, hhome, rfl⟩⟩ :=
    exists_before h
  · have hmem := List.mem_of_getElem? hbefore
    rw [code.covers_liveIntervals.physical i hmem, if_pos hpinned, Option.some.injEq] at hphysical
    exact absurd hphysical.symm (Register.physical_ne_of_isPinned number hpinned)
  · have hnone := (Code.physical_eq_none_iff (List.mem_of_getElem? hbefore)).mpr hunpinned
    obtain ⟨number', rfl, hnumber⟩ := Interval.physical_keepIn_eq_some hnone hphysical
    cases Register.physical_inj.mp hnumber
    exact ⟨position, before, Candidate.mem_ofIntervals.mpr ⟨hbefore, hnone⟩, hget, rfl, hhome⟩

theorem exists_home_slot {slot : Nat} (h : i ∈ (allocate pool code.liveIntervals).value)
    (hslot : i.slot = some slot) :
    ∃ position, (allocate pool code.liveIntervals).value[position]? = some i ∧
      (Scan.ofIntervals pool code.liveIntervals).home? position = some (.slot slot) := by
  obtain ⟨position, before, hbefore, hget, hcases⟩ := exists_before h
  have hnone := code.covers_liveIntervals.slot before (List.mem_of_getElem? hbefore)
  rcases hcases with ⟨_, rfl⟩ | ⟨_, home, hhome, rfl⟩
  · rw [hnone] at hslot
    cases hslot
  · cases home with
    | register number =>
      rw [show (before.keepIn (.register number)).slot = before.slot from rfl, hnone] at hslot
      cases hslot
    | slot number =>
      cases hslot
      exact ⟨position, hget, hhome⟩

theorem map_register_allocate (pool : Nat) (intervals : List Interval) :
    (allocate pool intervals).value.map Interval.register = intervals.map Interval.register := by
  refine List.ext_getElem? fun position => ?_
  rw [List.getElem?_map, List.getElem?_map, getElem?_allocate, Option.map_map]
  congr 1
  funext interval
  simp only [Function.comp_apply, Scan.settle]
  split
  · exact Interval.register_keepIn ..
  · rfl

/-- **The live intervals of a stream after allocation.** -/
theorem placement_allocate (code : Code) (pool : Nat) :
    Placement code pool (allocate pool code.liveIntervals).value := by
  obtain ⟨line, hinv⟩ := Scan.exists_inv pool code.liveIntervals
  have hcovers := code.covers_liveIntervals
  have hcandidate : ∀ {position before}, code.liveIntervals[position]? = some before →
      Register.isPinned before.register = false →
      ⟨position, before⟩ ∈ Candidate.ofIntervals code.liveIntervals := fun hget hunpinned =>
    Candidate.mem_ofIntervals.mpr
      ⟨hget, (Code.physical_eq_none_iff (List.mem_of_getElem? hget)).mpr hunpinned⟩
  constructor
  case nodup =>
    rw [map_register_allocate]
    exact hcovers.nodup
  case mem_names =>
    intro i hi
    have hregister := List.mem_map_of_mem (f := Interval.register) hi
    rw [map_register_allocate] at hregister
    obtain ⟨before, hbefore, heq⟩ := List.mem_map.mp hregister
    obtain ⟨line, hget, hreferenced⟩ := Code.mem_references.mp (hcovers.start_mem before hbefore)
    exact heq ▸ Code.mem_names.mpr ⟨before.start, line, hget, hreferenced⟩
  case contains =>
    intro index line hget name hname
    obtain ⟨before, hbefore, hregister, hcontains⟩ :=
      hcovers.contains (index, name) (Code.mem_references.mpr ⟨line, hget, hname⟩)
    obtain ⟨position, hposition⟩ := List.mem_iff_getElem?.mp hbefore
    have hafter := getElem?_allocate pool code.liveIntervals position
    rw [hposition, Option.map_some] at hafter
    refine ⟨_, List.mem_of_getElem? hafter, ?_⟩
    unfold Scan.settle
    split
    · exact ⟨(Interval.register_keepIn ..).trans hregister,
        (Interval.contains_keepIn ..).trans hcontains⟩
    · exact ⟨hregister, hcontains⟩
  case placed =>
    intro i hi
    obtain ⟨position, before, hbefore, _, ⟨hpinned, rfl⟩ | ⟨hunpinned, home, hhome, rfl⟩⟩ :=
      exists_before hi
    · have hmem := List.mem_of_getElem? hbefore
      exact .pinned hpinned (by rw [hcovers.physical i hmem, if_pos hpinned]) (hcovers.slot i hmem)
    · have hmem := List.mem_of_getElem? hbefore
      rw [← Interval.register_keepIn before home] at hunpinned
      cases home with
      | register number =>
        have hpool := (hinv.holds _ (hcandidate hbefore hunpinned) number hhome).1
        exact .register hunpinned number hpool rfl (hcovers.slot before hmem)
      | slot number =>
        have hnumber := (hinv.slot_iff number).mpr ⟨position, hhome⟩
        have hslots := Nat.le_trans hinv.nextSlot_le (length_ofIntervals_le code)
        exact .slot hunpinned number (Nat.lt_of_lt_of_le hnumber hslots)
          ((Code.physical_eq_none_iff hmem).mpr hunpinned) rfl
  case exclusive =>
    intro i hi j hj number hphysical hphysical' hoverlaps
    obtain ⟨p, before, hmem, hget, rfl, hhome⟩ := exists_home_register hi hphysical
    obtain ⟨q, before', hmem', hget', rfl, hhome'⟩ := exists_home_register hj hphysical'
    by_cases hpq : p = q
    · rw [hpq, hget'] at hget
      simpa using hget.symm
    · have hdisjoint := hinv.exclusive _ hmem _ hmem' hpq number hhome hhome'
      rw [Interval.overlaps_keepIn, hdisjoint] at hoverlaps
      cases hoverlaps
  case slot_inj =>
    intro i hi j hj slot hslot hslot'
    obtain ⟨p, hget, hhome⟩ := exists_home_slot hi hslot
    obtain ⟨q, hget', hhome'⟩ := exists_home_slot hj hslot'
    rw [hinv.slot_inj p q slot hhome hhome', hget'] at hget
    simpa using hget.symm

/-! ## Locations -/

namespace Placement

variable (h : Placement code pool allocated)

include h

theorem eq_of_register (hi : i ∈ allocated) (hj : j ∈ allocated)
    (hregister : i.register = j.register) : i = j :=
  List.inj_on_of_nodup_map h.nodup hi hj hregister

/-- A location is an allocatable register, or the register itself. -/
theorem location_cases (hi : i ∈ allocated) :
    (∃ number < pool, i.physical = some (Register.physical number) ∧
      i.location = Register.physical number) ∨ i.location = i.register := by
  unfold Interval.location
  cases h.placed i hi with
  | pinned _ hphysical _ => exact .inr (by rw [hphysical, Option.getD_some])
  | register _ number hnumber hphysical _ =>
    exact .inl ⟨number, hnumber, hphysical, by rw [hphysical, Option.getD_some]⟩
  | slot _ _ _ hphysical _ => exact .inr (by rw [hphysical, Option.getD_none])

theorem physicalAt_eq (hi : i ∈ allocated) (hcontains : i.contains index = true) :
    Code.physicalAt allocated index i.register = i.location := by
  rw [Code.physicalAt, Interval.find?_register h.nodup hi]
  exact if_pos hcontains

/-- A register whose location is a name of the stream is that name itself. -/
theorem register_eq_of_location {registers : Nat} (havoids : code.Avoids registers)
    (hpool : pool ≤ registers) (hi : i ∈ allocated) {name : String} (hname : name ∈ code.names)
    (hlocation : i.location = name) : i.register = name := by
  rcases h.location_cases hi with ⟨number, hnumber, _, heq⟩ | heq
  · rw [heq] at hlocation
    exact absurd (hlocation ▸ hname) (havoids number (by omega))
  · rw [← heq, hlocation]

theorem register_eq_of_location_pinned (hi : i ∈ allocated) {name : String}
    (hpinned : Register.isPinned name = true) (hlocation : i.location = name) :
    i.register = name := by
  rcases h.location_cases hi with ⟨number, _, _, heq⟩ | heq
  · exact absurd (heq.symm.trans hlocation) (Register.physical_ne_of_isPinned number hpinned)
  · rw [← heq, hlocation]

theorem location_eq_self_of_pinned (hi : i ∈ allocated)
    (hpinned : Register.isPinned i.register = true) : i.location = i.register := by
  cases h.placed i hi with
  | pinned _ hphysical _ => rw [Interval.location, hphysical, Option.getD_some]
  | register hunpinned => simp [hpinned] at hunpinned
  | slot hunpinned => simp [hpinned] at hunpinned

/-- **Registers in use at the same line have different locations.** -/
theorem location_inj {registers : Nat} (havoids : code.Avoids registers) (hpool : pool ≤ registers)
    (hi : i ∈ allocated) (hj : j ∈ allocated) (hi_contains : i.contains index = true)
    (hj_contains : j.contains index = true) (hlocation : i.location = j.location) : i = j := by
  rcases h.location_cases hi with ⟨number, _, hphysical, heq⟩ | heq
  · rcases h.location_cases hj with ⟨number', _, hphysical', heq'⟩ | heq'
    · rw [heq, heq', Register.physical_inj] at hlocation
      subst hlocation
      exact h.exclusive i hi j hj number hphysical hphysical'
        (Interval.overlaps_of_contains hi_contains hj_contains)
    · exact h.eq_of_register hi hj (h.register_eq_of_location havoids hpool hi
        (h.mem_names j hj) (hlocation.trans heq'))
  · exact (h.eq_of_register hj hi (h.register_eq_of_location havoids hpool hj
      (h.mem_names i hi) (hlocation.symm.trans heq))).symm

end Placement

/-! ## The renamed stream -/

@[simp] theorem Code.getElem?_assign (intervals : List Interval) (code : Code) (index : Nat) :
    (code.assign intervals)[index]? =
      code[index]?.map (Line.mapRegisters (physicalAt intervals index)) := by
  unfold assign
  rw [List.getElem?_map, List.getElem?_zipIdx, Option.map_map]
  simp [Function.comp_def]

namespace Placement

variable (h : Placement code pool allocated)

include h

/-- A register of a line occurs there in the renamed stream under its location. -/
theorem exists_mem_allocated {line : Line} (hget : code[index]? = some line) {name : String}
    (hname : name ∈ line.referenced) :
    ∃ i ∈ allocated, i.register = name ∧ i.contains index = true ∧
      Code.physicalAt allocated index name = i.location := by
  obtain ⟨i, hi, rfl, hcontains⟩ := h.contains index line hget name hname
  exact ⟨i, hi, rfl, hcontains, h.physicalAt_eq hi hcontains⟩

theorem exists_location {name : String} (hname : name ∈ (code.assign allocated).names) :
    ∃ i ∈ allocated, i.location = name := by
  obtain ⟨index, _, hget, hreferenced⟩ := Code.mem_names.mp hname
  rw [Code.getElem?_assign, Option.map_eq_some_iff] at hget
  obtain ⟨line, hget, rfl⟩ := hget
  rw [Line.referenced_mapRegisters, List.mem_map] at hreferenced
  obtain ⟨original, horiginal, rfl⟩ := hreferenced
  obtain ⟨i, hi, _, _, hlocation⟩ := h.exists_mem_allocated hget horiginal
  exact ⟨i, hi, hlocation.symm⟩

theorem exists_slot_lt (hi : i ∈ allocated.filter Interval.isSpilled) :
    Register.isPinned i.register = false ∧
      ∃ slot < code.virtuals.length, i.slot = some slot := by
  obtain ⟨hi, hspilled⟩ := List.mem_filter.mp hi
  cases h.placed i hi with
  | pinned _ hphysical _ => simp [Interval.isSpilled, hphysical] at hspilled
  | register _ _ _ hphysical _ => simp [Interval.isSpilled, hphysical] at hspilled
  | slot hunpinned number hnumber _ hslot => exact ⟨hunpinned, number, hnumber, hslot⟩

theorem not_spilled_of_pinned {name : String} (hpinned : Register.isPinned name = true) :
    name ∉ (allocated.filter Interval.isSpilled).map Interval.register := by
  intro hmem
  obtain ⟨i, hi, rfl⟩ := List.mem_map.mp hmem
  rw [(h.exists_slot_lt hi).1] at hpinned
  cases hpinned

theorem mem_names_of_pinned {name : String} (hpinned : Register.isPinned name = true)
    (hname : name ∈ (code.assign allocated).names) : name ∈ code.names := by
  obtain ⟨i, hi, hlocation⟩ := h.exists_location hname
  exact h.register_eq_of_location_pinned hi hpinned hlocation ▸ h.mem_names i hi

variable {registers : Nat} (havoids : code.Avoids registers) (hpool : pool ≤ registers)

include havoids hpool

/-- A register of the stream that occurs in a line of the renamed stream occurs there in the
stream itself, in the same role. -/
theorem mem_of_mem_map {line : Line} (hget : code[index]? = some line) {roles : List String}
    (hroles : roles ⊆ line.referenced) {name : String} (hname : name ∈ code.names)
    (hmem : name ∈ roles.map (Code.physicalAt allocated index)) : name ∈ roles := by
  obtain ⟨original, horiginal, heq⟩ := List.mem_map.mp hmem
  obtain ⟨i, hi, hregister, _, hlocation⟩ := h.exists_mem_allocated hget (hroles horiginal)
  rw [← h.register_eq_of_location havoids hpool hi hname (hlocation.symm.trans heq), hregister]
  exact horiginal

/-- **The spilled registers of the renamed stream can be kept in their slots**, by way of
temporaries outside the pool. -/
theorem spillPlan {temporaries : List Nat} (hslots : code.virtuals.length < 2 ^ 31)
    (hnodup : temporaries.Nodup) (htemporaries : ∀ t ∈ temporaries, pool ≤ t ∧ t < registers) :
    SpillPlan (code.assign allocated) (allocated.filter Interval.isSpilled) temporaries := by
  have hmem : ∀ {i}, i ∈ allocated.filter Interval.isSpilled → i ∈ allocated :=
    fun hi => (List.mem_filter.mp hi).1
  have hslot : ∀ i ∈ allocated.filter Interval.isSpilled, ∃ slot < 2 ^ 31, i.slot = some slot := by
    intro i hi
    obtain ⟨_, slot, hlt, hslot⟩ := h.exists_slot_lt hi
    exact ⟨slot, Nat.lt_trans hlt hslots, hslot⟩
  constructor
  case toSpillable =>
    refine ⟨(List.filter_sublist.map _).nodup h.nodup, fun i hi t ht heq => ?_⟩
    exact havoids t (htemporaries t ht).2 (heq ▸ h.mem_names i (hmem hi))
  case slot => exact hslot
  case slot_nodup =>
    refine List.Nodup.map_on ?_ ((h.nodup.of_map _).filter _)
    intro i hi j hj heq
    obtain ⟨slot, _, hi_slot⟩ := hslot i hi
    exact h.slot_inj i (hmem hi) j (hmem hj) slot hi_slot (heq ▸ hi_slot)
  case temporaries_nodup => exact hnodup
  case temporary_fresh =>
    intro t ht hname
    obtain ⟨i, hi, hlocation⟩ := h.exists_location hname
    rcases h.location_cases hi with ⟨number, hnumber, _, heq⟩ | heq
    · rw [heq, Register.physical_inj] at hlocation
      have := (htemporaries t ht).1
      omega
    · rw [heq] at hlocation
      exact havoids t (htemporaries t ht).2 (hlocation ▸ h.mem_names i hi)
  case covers =>
    intro i hi index _ hget hoccurs
    rw [Code.getElem?_assign, Option.map_eq_some_iff] at hget
    obtain ⟨line, hget, rfl⟩ := hget
    rw [Line.sources_mapRegisters, Line.destinations_mapRegisters] at hoccurs
    have hname := h.mem_names i (hmem hi)
    have hreferenced : i.register ∈ line.referenced := by
      rcases hoccurs with hreads | hwrites
      · exact Line.mem_referenced_of_mem_sources (h.mem_of_mem_map havoids hpool hget
          (fun _ => Line.mem_referenced_of_mem_sources) hname hreads)
      · exact Line.mem_referenced_of_mem_destinations (h.mem_of_mem_map havoids hpool hget
          (fun _ => Line.mem_referenced_of_mem_destinations) hname hwrites)
    obtain ⟨j, hj, hregister, hcontains⟩ := h.contains index line hget _ hreferenced
    exact h.eq_of_register hj (hmem hi) hregister ▸ hcontains

end Placement

end TurtleAlloc
