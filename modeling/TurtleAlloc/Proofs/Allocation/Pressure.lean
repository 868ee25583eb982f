import Mathlib
import TurtleAlloc.Proofs.Allocation.Sharing

/-!
# How many registers are used

Registers are handed out from the lowest on, and one that was handed out once always has a holder:
it changes hands, but is never left to nobody.  So the registers in use are the lowest ones, and
there are as many of them as the pressure asks for and the pool allows.

* `Scan.InUse` — a register that some interval holds, or held until it ended.
* `Scan.Compact` — the registers in use are those below some number.  A visit keeps it, with the
  same number or the next one (`Scan.Compact.visit`).
* `inUse_ofIntervals_iff` — which registers are in use at the end of an allocation.
* `allocate_matches_pressure` — when somebody is spilled, and which registers are given out.
-/

namespace TurtleAlloc

variable {pool : Nat} {intervals : List Interval}

namespace Scan

variable {line number : Nat} {seen rest : List Candidate} {scan : Scan} {candidate : Candidate}

/-! ## Registers in use -/

/-- Some interval is kept in the register. -/
def InUse (scan : Scan) (number : Nat) : Prop :=
  ∃ position, scan.home? position = some (.register number)

theorem inUse_of_mem_active (hinv : Inv pool seen line scan)
    (hmem : number ∈ scan.active.map Tenant.number) : scan.InUse number := by
  obtain ⟨t, ht, rfl⟩ := List.mem_map.mp hmem
  exact ⟨_, (hinv.tenant t ht).2.2⟩

theorem inUse_assign (hnone : scan.home? candidate.position = none) {given : Nat} :
    (scan.assign candidate given).value.InUse number ↔ number = given ∨ scan.InUse number := by
  constructor
  · rintro ⟨position, hhome⟩
    rw [home?_assign] at hhome
    split at hhome
    · cases hhome
      exact .inl rfl
    · exact .inr ⟨position, hhome⟩
  · rintro (rfl | ⟨position, hhome⟩)
    · exact ⟨candidate.position, by rw [home?_assign, if_pos rfl]⟩
    · refine ⟨position, ?_⟩
      rw [home?_assign, if_neg, hhome]
      rintro rfl
      rw [hnone] at hhome
      cases hhome

theorem inUse_spill (hnone : scan.home? candidate.position = none) :
    (scan.spill candidate).value.InUse number ↔ scan.InUse number := by
  refine exists_congr fun position => ?_
  rw [home?_spill]
  split
  · rename_i heq
    rw [heq, hnone]
    simp
  · rfl

/-- An evicted interval hands its register over, so the registers in use stay the same. -/
theorem inUse_evict (hnone : scan.home? candidate.position = none) {tenant : Tenant}
    {others : List Tenant}
    (hhome : scan.home? tenant.candidate.position = some (.register tenant.number)) :
    (scan.evict tenant others candidate).value.InUse number ↔ scan.InUse number := by
  have hne : candidate.position ≠ tenant.candidate.position := by
    intro heq
    rw [heq, hhome] at hnone
    cases hnone
  rw [evict_eq_assign_unseat, inUse_assign (by rw [home?_unseat, if_neg hne, hnone])]
  constructor
  · rintro (rfl | ⟨position, h⟩)
    · exact ⟨_, hhome⟩
    · rw [home?_unseat] at h
      split at h
      · cases h
      · exact ⟨position, h⟩
  · rintro ⟨position, h⟩
    by_cases heq : position = tenant.candidate.position
    · rw [heq, hhome] at h
      cases h
      exact .inl rfl
    · exact .inr ⟨position, by rw [home?_unseat, if_neg heq, h]⟩

theorem Inv.of_inUse (hinv : Inv pool seen line scan) {count : Nat}
    (h : ∀ number, scan.InUse number → number < count) : Inv count seen line scan := by
  refine { hinv with tenant := fun t ht => ?_, holds := fun c hc number hhome => ?_ }
  · obtain ⟨hseen, _, hhome⟩ := hinv.tenant t ht
    exact ⟨hseen, h _ ⟨_, hhome⟩, hhome⟩
  · exact ⟨h _ ⟨_, hhome⟩, (hinv.holds c hc number hhome).2⟩

/-! ## The lowest registers -/

/-- The registers in use are the `count` lowest.  They are no more than `limit`, and all that there
are once somebody had to be spilled. -/
structure Compact (pool limit count : Nat) (scan : Scan) : Prop where
  inUse_iff : ∀ number, scan.InUse number ↔ number < count
  count_le : count ≤ limit
  full : 0 < scan.nextSlot → pool ≤ count

namespace Compact

variable {limit count : Nat}

theorem expire (h : Compact pool limit count scan) (line : Nat) :
    Compact pool limit count (scan.expire line).value :=
  ⟨h.inUse_iff, h.count_le, h.full⟩

theorem le_count (h : Compact pool limit count scan) {bound : Nat}
    (hbound : ∀ number < bound, scan.InUse number) : bound ≤ count := by
  by_contra hlt
  exact Nat.lt_irrefl count ((h.inUse_iff count).mp (hbound count (Nat.lt_of_not_le hlt)))

/-- The lowest free register is one that was in use before, or the next one. -/
theorem assign (h : Compact pool limit count scan)
    (hnone : scan.home? candidate.position = none) {given : Nat}
    (hlower : ∀ number < given, scan.InUse number) (hlimit : given < limit) :
    ∃ next, Compact pool limit next (scan.assign candidate given).value := by
  have hle := h.le_count hlower
  rcases Nat.lt_or_eq_of_le hle with hlt | rfl
  · refine ⟨count, fun number => ?_, h.count_le, h.full⟩
    rw [inUse_assign hnone, h.inUse_iff]
    omega
  · refine ⟨given + 1, fun number => ?_, hlimit, fun hslot => ?_⟩
    · rw [inUse_assign hnone, h.inUse_iff]
      omega
    · exact Nat.le_succ_of_le (h.full hslot)

/-- **A visit leaves no gap.** -/
theorem visit (h : Compact pool (pressure intervals) count scan)
    (hinv : Inv pool seen line scan) (hline : line ≤ candidate.interval.start)
    (hall : Candidate.ofIntervals intervals = seen ++ candidate :: rest)
    (hrange : ∀ interval ∈ intervals, interval.physical = none → interval.start < interval.stop) :
    ∃ next, Compact pool (pressure intervals) next (scan.visit pool candidate).value := by
  have hkept := h.expire candidate.interval.start
  have hinv' := hinv.expire hline
  have hnone := hinv'.home?_eq_none
    (Candidate.position_notMem (hall ▸ Candidate.ofIntervals_nodup intervals))
  rcases visit_cases pool scan candidate with
    ⟨given, _, _, hlower, hvisit⟩ | ⟨hheld, hcases⟩
  · rw [hvisit]
    exact hkept.assign hnone (fun number hlt => inUse_of_mem_active hinv' (hlower number hlt))
      (hinv.lt_pressure hline hall hrange hlower)
  · have hfull : pool ≤ count :=
      hkept.le_count fun number hlt => inUse_of_mem_active hinv' (hheld number hlt)
    rcases hcases with ⟨_, hvisit⟩ | ⟨tenant, others, htake, _, hvisit⟩
    · rw [hvisit]
      refine ⟨count, fun number => ?_, h.count_le, fun _ => hfull⟩
      rw [inUse_spill hnone, hkept.inUse_iff]
    · rw [hvisit]
      have hmem := Tenant.mem_of_takeLongest htake
      refine ⟨count, fun number => ?_, h.count_le, fun _ => hfull⟩
      rw [inUse_evict hnone (hinv'.tenant tenant hmem).2.2, hkept.inUse_iff]

end Compact

end Scan

/-! ## The registers that an allocation gives out -/

section Waiting

variable (hrange : ∀ interval ∈ intervals, interval.physical = none →
  interval.start < interval.stop)

include hrange

/-- **At the end the lowest registers are in use**, as many as the pressure asks for and the pool
allows. -/
theorem inUse_ofIntervals_iff (pool number : Nat) :
    (Scan.ofIntervals pool intervals).InUse number ↔ number < min pool (pressure intervals) := by
  have hstart : Scan.Compact pool (pressure intervals) 0 {} :=
    ⟨by simp [Scan.InUse, Scan.home?], Nat.zero_le _, fun h => absurd h (Nat.lt_irrefl 0)⟩
  obtain ⟨⟨line, hinv⟩, count, hcompact⟩ := Scan.run_induction pool
    (motive := fun _ scan => ∃ count, Scan.Compact pool (pressure intervals) count scan)
    (Candidate.ofIntervals_pairwise intervals) (Candidate.ofIntervals_nodup intervals)
    ⟨0, hstart⟩ (by
      rintro seen line scan candidate rest hall hinv hline ⟨count, h⟩
      exact h.visit hinv hline hall hrange)
  change Scan.Inv pool _ line (Scan.ofIntervals pool intervals) at hinv
  change Scan.Compact pool _ count (Scan.ofIntervals pool intervals) at hcompact
  have hpool : ∀ number, (Scan.ofIntervals pool intervals).InUse number → number < pool := by
    rintro number ⟨position, hhome⟩
    obtain ⟨c, hc, rfl⟩ := List.mem_map.mp (hinv.known position (by rw [hhome]; rfl))
    exact (hinv.holds c hc number hhome).1
  have hle : count ≤ pool := by
    by_contra hlt
    exact Nat.lt_irrefl pool (hpool pool ((hcompact.inUse_iff pool).mpr (Nat.lt_of_not_le hlt)))
  -- with fewer registers than pool and pressure allow, somebody would have been spilled too early
  have hge : min pool (pressure intervals) ≤ count := by
    by_contra hlt
    obtain ⟨position, slot, hslot⟩ :=
      (hinv.of_inUse fun number h => (hcompact.inUse_iff number).mp h).exists_slot
        (show count < pressure intervals by omega)
    have := hcompact.full (Nat.zero_lt_of_lt ((hinv.slot_iff slot).mpr ⟨position, hslot⟩))
    omega
  have hpressure := hcompact.count_le
  rw [hcompact.inUse_iff]
  omega

theorem exists_isGranted_iff (pool : Nat) (name : String) :
    (∃ position interval, IsGranted pool intervals position interval name) ↔
      ∃ number < min pool (pressure intervals), name = Register.physical number := by
  constructor
  · rintro ⟨position, interval, hgranted⟩
    obtain ⟨_, number, _, _, hname, hhome⟩ := hgranted.exists_home
    exact ⟨number, (inUse_ofIntervals_iff hrange pool number).mp ⟨position, hhome⟩, hname⟩
  · rintro ⟨number, hlt, rfl⟩
    obtain ⟨position, hhome⟩ := (inUse_ofIntervals_iff hrange pool number).mpr hlt
    obtain ⟨interval, hget, hwaiting, hresult⟩ := exists_waiting_of_home? hhome
    exact ⟨position, _, by rw [hget, Option.map_some, hwaiting], hresult, rfl⟩

end Waiting

/-- **Registers used match the pressure exactly.**  For waiting intervals that are not empty and
have no slot yet: one of them gets a slot exactly if the pressure exceeds the pool, and the
registers that they get are the lowest ones, as many as the pressure asks for and the pool
allows. -/
theorem allocate_matches_pressure (pool : Nat)
    (hwaiting : ∀ interval ∈ intervals, interval.physical = none →
      interval.start < interval.stop ∧ interval.slot = none) :
    ((∃ (position : Nat) (before after : Interval), intervals[position]? = some before ∧
        before.physical = none ∧ (allocate pool intervals).value[position]? = some after ∧
        after.slot.isSome) ↔ pool < pressure intervals) ∧
    ∀ name, (∃ position interval, IsGranted pool intervals position interval name) ↔
      ∃ number < min pool (pressure intervals), name = Register.physical number := by
  have hrange : ∀ interval ∈ intervals, interval.physical = none →
      interval.start < interval.stop := fun interval hmem h => (hwaiting interval hmem h).1
  refine ⟨⟨?_, fun hlt => ?_⟩, exists_isGranted_iff hrange pool⟩
  · rintro ⟨position, before, after, hget, hnone, hafter, hslot⟩
    obtain ⟨home, hhome, hresult⟩ := getElem?_allocate_of_waiting pool hget hnone
    cases hafter.symm.trans hresult
    have hbefore := (hwaiting before (List.mem_of_getElem? hget) hnone).2
    cases home with
    | register number => simp [Interval.keepIn, hbefore] at hslot
    | slot number =>
      by_contra hle
      exact home?_ne_slot_of_pressure_le hrange (Nat.le_of_not_lt hle) position number hhome
  · obtain ⟨position, number, hhome⟩ := exists_slot_of_lt_pressure hlt
    obtain ⟨interval, hget, hnone, hresult⟩ := exists_waiting_of_home? hhome
    exact ⟨position, interval, _, hget, hnone, hresult, rfl⟩

/-- Three intervals meet at line 2, and there are two registers: `a` is evicted, and its register
has two more holders.  The interval that came with a register and a slot does not count. -/
theorem allocate_matches_pressure_three :
    let intervals : List Interval := [⟨"fp", 0, 9, some "fp", some 7⟩, ⟨"a", 0, 9, none, none⟩,
      ⟨"b", 1, 4, none, none⟩, ⟨"c", 2, 5, none, none⟩, ⟨"d", 5, 7, none, none⟩]
    (∀ interval ∈ intervals, interval.physical = none →
        interval.start < interval.stop ∧ interval.slot = none) ∧
      pressure intervals = 3 ∧
      (∃ (position : Nat) (before after : Interval), intervals[position]? = some before ∧
        before.physical = none ∧ (allocate 2 intervals).value[position]? = some after ∧
        after.slot.isSome) ∧
      ∀ name, (∃ position interval, IsGranted 2 intervals position interval name) ↔
        ∃ number < 2, name = Register.physical number := by
  intro intervals
  have hwaiting : ∀ interval ∈ intervals, interval.physical = none →
      interval.start < interval.stop ∧ interval.slot = none := by decide
  have hpressure : pressure intervals = 3 := by decide +kernel
  obtain ⟨hspills, hgrants⟩ := allocate_matches_pressure 2 hwaiting
  rw [hpressure] at hspills hgrants
  exact ⟨hwaiting, hpressure, hspills.mpr (by decide), hgrants⟩

end TurtleAlloc
