import Mathlib
import TurtleAlloc.Proofs.Allocation.Sharing

/-!
# Every interval gets its place, and how spill slots are numbered

For intervals that come without slots:

* `isSpilled_iff_slot` — after allocation an interval has a slot exactly if it is spilled;
* `mem_slots_iff`, `nodup_slots` — the slots in use are those that the scan gave out, each for one
  interval;
* `perm_slots` — the slots of the spilled intervals are the numbers below how many there are;
* `allocate_resolves` — what becomes of every interval, and how the slots are numbered.
-/

namespace TurtleAlloc

variable {pool : Nat} {intervals : List Interval} {position slot : Nat} {interval : Interval}

section Slots

variable (hnone : ∀ interval ∈ intervals, interval.slot = none)

include hnone

theorem slot_eq_some_iff (hget : (allocate pool intervals).value[position]? = some interval) :
    interval.slot = some slot ↔
      (Scan.ofIntervals pool intervals).home? position = some (.slot slot) := by
  rw [getElem?_allocate, Option.map_eq_some_iff] at hget
  obtain ⟨before, hbefore, rfl⟩ := hget
  have hslot := hnone before (List.mem_of_getElem? hbefore)
  unfold Scan.settle
  cases (Scan.ofIntervals pool intervals).home? position with
  | none => simp [hslot]
  | some home => cases home <;> simp [Interval.keepIn, hslot]

theorem isSpilled_iff_slot (hmem : interval ∈ (allocate pool intervals).value) :
    interval.isSpilled = interval.slot.isSome := by
  obtain ⟨position, hget⟩ := List.mem_iff_getElem?.mp hmem
  cases hslot : interval.slot with
  | none => simp [Interval.isSpilled, hslot]
  | some slot =>
    have hhome := (slot_eq_some_iff hnone hget).mp hslot
    obtain ⟨before, _, hwaiting, hresult⟩ := exists_waiting_of_home? hhome
    cases hget.symm.trans hresult
    simp [Interval.isSpilled, Interval.keepIn, hwaiting]

theorem mem_slots_iff (pool slot : Nat) :
    slot ∈ (allocate pool intervals).value.filterMap Interval.slot ↔
      slot < (Scan.ofIntervals pool intervals).nextSlot := by
  obtain ⟨line, hinv⟩ := Scan.exists_inv pool intervals
  rw [hinv.slot_iff, List.mem_filterMap]
  constructor
  · rintro ⟨interval, hmem, hslot⟩
    obtain ⟨position, hget⟩ := List.mem_iff_getElem?.mp hmem
    exact ⟨position, (slot_eq_some_iff hnone hget).mp hslot⟩
  · rintro ⟨position, hhome⟩
    obtain ⟨_, _, _, hget⟩ := exists_waiting_of_home? hhome
    exact ⟨_, List.mem_of_getElem? hget, (slot_eq_some_iff hnone hget).mpr hhome⟩

theorem nodup_slots (pool : Nat) :
    ((allocate pool intervals).value.filterMap Interval.slot).Nodup := by
  obtain ⟨line, hinv⟩ := Scan.exists_inv pool intervals
  refine List.pairwise_filterMap.mpr (List.pairwise_iff_getElem.mpr ?_)
  rintro p q hp hq hlt slot hslot _ hslot' rfl
  have hhome := (slot_eq_some_iff hnone (List.getElem?_eq_getElem hp)).mp hslot
  have hhome' := (slot_eq_some_iff hnone (List.getElem?_eq_getElem hq)).mp hslot'
  have := hinv.slot_inj p q slot hhome hhome'
  omega

theorem filterMap_slot_spilled (pool : Nat) :
    ((allocate pool intervals).value.filter Interval.isSpilled).filterMap Interval.slot =
      (allocate pool intervals).value.filterMap Interval.slot := by
  rw [List.filterMap_filter]
  refine List.filterMap_congr fun interval hmem => ?_
  rw [isSpilled_iff_slot hnone hmem]
  cases interval.slot <;> rfl

/-- **Slots are numbered without gaps**: those of the spilled intervals are the numbers below how
many there are. -/
theorem perm_slots (pool : Nat) :
    let spilled := (allocate pool intervals).value.filter Interval.isSpilled
    (spilled.filterMap Interval.slot).Perm (List.range spilled.length) := by
  intro spilled
  have hperm : (spilled.filterMap Interval.slot).Perm
      (List.range (Scan.ofIntervals pool intervals).nextSlot) := by
    rw [filterMap_slot_spilled hnone,
      List.perm_ext_iff_of_nodup (nodup_slots hnone pool) List.nodup_range]
    intro slot
    rw [mem_slots_iff hnone, List.mem_range]
  have hlength : (spilled.filterMap Interval.slot).length = spilled.length := by
    rw [List.length_filterMap_eq_countP, List.countP_eq_length]
    intro interval hmem
    obtain ⟨hmem, hspilled⟩ := List.mem_filter.mp hmem
    rwa [← isSpilled_iff_slot hnone hmem]
  rwa [← hlength, hperm.length_eq, List.length_range]

/-- What becomes of one interval: its register and its lines stay, and so does all of it if it came
with a register; otherwise it leaves with a register or a slot, and not with both. -/
theorem resolved_at {before after : Interval} (hbefore : intervals[position]? = some before)
    (hafter : (allocate pool intervals).value[position]? = some after) :
    (after.register = before.register ∧ after.start = before.start ∧ after.stop = before.stop) ∧
      (before.physical ≠ none → after = before) ∧
      (before.physical = none → after.physical.isSome ≠ after.slot.isSome) := by
  by_cases hwaiting : before.physical = none
  · obtain ⟨home, _, hresult⟩ := getElem?_allocate_of_waiting pool hbefore hwaiting
    cases hafter.symm.trans hresult
    have hslot := hnone before (List.mem_of_getElem? hbefore)
    cases home <;> simp [Interval.keepIn, hwaiting, hslot]
  · cases hafter.symm.trans (getElem?_allocate_of_placed hbefore hwaiting)
    exact ⟨⟨rfl, rfl, rfl⟩, fun _ => rfl, fun h => absurd h hwaiting⟩

end Slots

/-- **Every interval is resolved once, and slots are numbered without gaps.**  Allocation of
intervals without slots keeps their number, their order, their registers and their lines.  An
interval that came with a register is unchanged; every other one leaves with either a register or a
slot.  The slots are the numbers below how many intervals are spilled, each for one of them.  All
this is what the caller gets back, unless the pool is refused for its size. -/
theorem allocate_resolves (pool : Nat) (hnone : ∀ interval ∈ intervals, interval.slot = none) :
    let result := (allocate pool intervals).value
    result.length = intervals.length ∧
      (∀ (position : Nat) (before after : Interval), intervals[position]? = some before →
        result[position]? = some after →
        (after.register = before.register ∧ after.start = before.start ∧
          after.stop = before.stop) ∧
        (before.physical ≠ none → after = before) ∧
        (before.physical = none → after.physical.isSome ≠ after.slot.isSome)) ∧
      (result.filterMap Interval.slot).Perm (List.range (result.countP Interval.isSpilled)) ∧
      (pool < poolLimit → (allocateWithin pool intervals).result = .ok result) := by
  refine ⟨length_allocate pool intervals, fun _ _ _ => resolved_at hnone, ?_,
    fun hlimit => result_allocateWithin hlimit intervals⟩
  rw [← filterMap_slot_spilled hnone, List.countP_eq_length_filter]
  exact perm_slots hnone pool

/-- One register: `y` takes it from `x`, `z` is spilled, and the inverted `w` takes it from `y`.  So
`y`, which held a register in between, gets the last slot. -/
theorem allocate_resolves_handed_over :
    let intervals : List Interval := [⟨"x", 0, 9, none, none⟩, ⟨"y", 1, 6, none, none⟩,
      ⟨"fp", 0, 9, some "fp", none⟩, ⟨"z", 2, 6, none, none⟩, ⟨"w", 5, 2, none, none⟩]
    let result := (allocate 1 intervals).value
    (∀ interval ∈ intervals, interval.slot = none) ∧
      result.map Interval.slot = [some 0, some 2, none, some 1, none] ∧
      result.length = 5 ∧ (result.filterMap Interval.slot).Perm (List.range 3) ∧
      (allocateWithin 1 intervals).result = .ok result := by
  intro intervals result
  have hnone : ∀ interval ∈ intervals, interval.slot = none := by decide
  have hspilled : result.countP Interval.isSpilled = 3 := by decide +kernel
  obtain ⟨hlength, _, hslots, hreturned⟩ := allocate_resolves 1 hnone
  rw [hspilled] at hslots
  exact ⟨hnone, by decide +kernel, hlength, hslots, hreturned (by decide)⟩

end TurtleAlloc
