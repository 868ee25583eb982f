import Mathlib
import TurtleAlloc.Proofs.Allocation.Scan

/-!
# Who shares a register with whom

* `allocate_exclusive` — a register that allocation gives out is one of the pool, and two
  intervals that get the same one do not overlap.
* `Scan.Inv.length_le_pool` — at no line do more intervals hold a register than there are
  registers, neither during a scan nor at its end (`length_le_pool`).
* `pressure` — the largest number of waiting intervals that contain a common line.  Allocation
  needs a slot exactly if the pressure exceeds the pool: `home?_ne_slot_of_pressure_le` and
  `exists_slot_of_lt_pressure`.
-/

namespace TurtleAlloc

variable {pool : Nat} {intervals : List Interval} {position : Nat} {interval : Interval}
  {name : String}

/-! ## The outcome at one position -/

/-- Only intervals without a register are given a place, and they are kept there. -/
theorem exists_waiting_of_home? {home : Home}
    (hhome : (Scan.ofIntervals pool intervals).home? position = some home) :
    ∃ interval, intervals[position]? = some interval ∧ interval.physical = none ∧
      (allocate pool intervals).value[position]? = some (interval.keepIn home) := by
  obtain ⟨line, hinv⟩ := Scan.exists_inv pool intervals
  obtain ⟨candidate, hmem, rfl⟩ := List.mem_map.mp (hinv.known position (by rw [hhome]; rfl))
  obtain ⟨hget, hwaiting⟩ := Candidate.mem_ofIntervals.mp hmem
  refine ⟨candidate.interval, hget, hwaiting, ?_⟩
  rw [getElem?_allocate, hget, Option.map_some, Scan.settle, hhome]

theorem getElem?_allocate_of_placed (hget : intervals[position]? = some interval)
    (hplaced : interval.physical ≠ none) :
    (allocate pool intervals).value[position]? = some interval := by
  have hnone : (Scan.ofIntervals pool intervals).home? position = none := by
    rw [Option.eq_none_iff_forall_ne_some]
    intro home hhome
    obtain ⟨_, hget', hwaiting, _⟩ := exists_waiting_of_home? hhome
    cases hget.symm.trans hget'
    exact hplaced hwaiting
  rw [getElem?_allocate, hget, Option.map_some, Scan.settle, hnone]

theorem getElem?_allocate_of_waiting (pool : Nat) (hget : intervals[position]? = some interval)
    (hwaiting : interval.physical = none) :
    ∃ home, (Scan.ofIntervals pool intervals).home? position = some home ∧
      (allocate pool intervals).value[position]? = some (interval.keepIn home) := by
  obtain ⟨line, hinv⟩ := Scan.exists_inv pool intervals
  have hmem : ⟨position, interval⟩ ∈ Candidate.ofIntervals intervals :=
    Candidate.mem_ofIntervals.mpr ⟨hget, hwaiting⟩
  obtain ⟨home, hhome⟩ := Option.isSome_iff_exists.mp (hinv.placed _ hmem)
  exact ⟨home, hhome, by rw [getElem?_allocate, hget, Option.map_some, Scan.settle, hhome]⟩

theorem Interval.physical_keepIn_eq_some {home : Home}
    (hwaiting : interval.physical = none) (h : (interval.keepIn home).physical = some name) :
    ∃ number, home = .register number ∧ name = Register.physical number := by
  cases home with
  | register number => exact ⟨number, rfl, by simpa [keepIn] using h.symm⟩
  | slot number => simp [keepIn, hwaiting] at h

@[simp] theorem Interval.overlaps_keepIn (a b : Interval) (home home' : Home) :
    (a.keepIn home).overlaps (b.keepIn home') = a.overlaps b := by
  cases home <;> cases home' <;> rfl

/-! ## No double allocation -/

/-- The interval at a position came without a register, and allocation returns it as `interval`,
kept in the register `name`. -/
def IsGranted (pool : Nat) (intervals : List Interval) (position : Nat) (interval : Interval)
    (name : String) : Prop :=
  intervals[position]?.map Interval.physical = some none ∧
    (allocate pool intervals).value[position]? = some interval ∧ interval.physical = some name

instance : Decidable (IsGranted pool intervals position interval name) :=
  inferInstanceAs (Decidable (_ ∧ _ ∧ _))

theorem IsGranted.exists_home (h : IsGranted pool intervals position interval name) :
    ∃ before number, ⟨position, before⟩ ∈ Candidate.ofIntervals intervals ∧
      interval = before.keepIn (.register number) ∧ name = Register.physical number ∧
      (Scan.ofIntervals pool intervals).home? position = some (.register number) := by
  obtain ⟨hbefore, hafter, hname⟩ := h
  obtain ⟨before, hget, hwaiting⟩ := Option.map_eq_some_iff.mp hbefore
  obtain ⟨home, hhome, hresult⟩ := getElem?_allocate_of_waiting pool hget hwaiting
  rw [hafter] at hresult
  cases hresult
  obtain ⟨number, rfl, hnumber⟩ := Interval.physical_keepIn_eq_some hwaiting hname
  exact ⟨before, number, Candidate.mem_ofIntervals.mpr ⟨hget, hwaiting⟩, rfl, hnumber, hhome⟩

/-- **No double allocation.**  Whatever the intervals are, a register that is given out belongs to
the pool, and intervals at different positions that get the same one do not overlap. -/
theorem allocate_exclusive (pool : Nat) (intervals : List Interval) :
    (∀ position interval name, IsGranted pool intervals position interval name →
      ∃ number < pool, name = Register.physical number) ∧
    ∀ i j a b name, i ≠ j → IsGranted pool intervals i a name →
      IsGranted pool intervals j b name → a.overlaps b = false := by
  obtain ⟨line, hinv⟩ := Scan.exists_inv pool intervals
  constructor
  · intro position interval name hgranted
    obtain ⟨before, number, hmem, _, hname, hhome⟩ := hgranted.exists_home
    exact ⟨number, (hinv.holds _ hmem number hhome).1, hname⟩
  · intro i j a b name hij ha hb
    obtain ⟨before, number, hmem, rfl, hname, hhome⟩ := ha.exists_home
    obtain ⟨before', number', hmem', rfl, hname', hhome'⟩ := hb.exists_home
    rw [hname, Register.physical_inj] at hname'
    subst hname'
    rw [Interval.overlaps_keepIn]
    exact hinv.exclusive _ hmem _ hmem' hij number hhome hhome'

/-- One register for three intervals: `y` takes it from `x`, and `z` and the inverted `w` follow
as soon as it is free. -/
theorem allocate_exclusive_handed_over :
    let intervals : List Interval := [⟨"w", 5, 2, none, none⟩, ⟨"x", 0, 9, none, none⟩,
      ⟨"y", 1, 3, none, none⟩, ⟨"z", 3, 5, none, none⟩]
    let y : Interval := ⟨"y", 1, 3, some "r0", none⟩
    let z : Interval := ⟨"z", 3, 5, some "r0", none⟩
    (IsGranted 1 intervals 2 y "r0" ∧ IsGranted 1 intervals 3 z "r0") ∧
      (∃ number < 1, "r0" = Register.physical number) ∧ y.overlaps z = false := by
  intro intervals y z
  have hy : IsGranted 1 intervals 2 y "r0" := by decide +kernel
  have hz : IsGranted 1 intervals 3 z "r0" := by decide +kernel
  obtain ⟨hpool, hdisjoint⟩ := allocate_exclusive 1 intervals
  exact ⟨⟨hy, hz⟩, hpool 2 y "r0" hy, hdisjoint 2 3 y z "r0" (by decide) hy hz⟩

/-! ## Crowded lines -/

/-- Intervals that contain a common line and hold a register hold different ones. -/
theorem Scan.Inv.length_le_pool {seen : List Candidate} {line : Nat} {scan : Scan}
    (hinv : Scan.Inv pool seen line scan) (index : Nat) {positions : List Nat}
    (hnodup : positions.Nodup)
    (h : ∀ p ∈ positions, ∃ interval number, ⟨p, interval⟩ ∈ seen ∧ interval.contains index ∧
      scan.home? p = some (.register number)) :
    positions.length ≤ pool := by
  choose! interval number hmem hcontains hhome using h
  have hnumbers : (positions.map number).Nodup := by
    refine List.Nodup.map_on ?_ hnodup
    intro p hp q hq heq
    by_contra hne
    have hdisjoint := hinv.exclusive _ (hmem p hp) _ (hmem q hq) hne (number p) (hhome p hp)
      (heq ▸ hhome q hq)
    rw [Interval.overlaps_of_contains (hcontains p hp) (hcontains q hq)] at hdisjoint
    cases hdisjoint
  have hsub : positions.map number ⊆ List.range pool := by
    intro k hk
    obtain ⟨p, hp, rfl⟩ := List.mem_map.mp hk
    exact List.mem_range.mpr (hinv.holds _ (hmem p hp) _ (hhome p hp)).1
  simpa using (hnumbers.subperm hsub).length_le

theorem length_le_pool (intervals : List Interval) (index : Nat) {positions : List Nat}
    (hnodup : positions.Nodup)
    (h : ∀ p ∈ positions, ∃ interval number, ⟨p, interval⟩ ∈ Candidate.ofIntervals intervals ∧
      interval.contains index ∧
      (Scan.ofIntervals pool intervals).home? p = some (.register number)) :
    positions.length ≤ pool := by
  obtain ⟨line, hinv⟩ := Scan.exists_inv pool intervals
  exact hinv.length_le_pool index hnodup h

/-- The number of intervals without a register that contain a line. -/
def pressureAt (intervals : List Interval) (index : Nat) : Nat :=
  intervals.countP fun interval => interval.physical.isNone && interval.contains index

/-- The line behind all intervals. -/
def horizon (intervals : List Interval) : Nat :=
  intervals.foldr (fun interval line => max interval.stop line) 0

/-- The largest number of intervals without a register that contain a common line. -/
def pressure (intervals : List Interval) : Nat :=
  (Finset.range (horizon intervals)).sup (pressureAt intervals)

theorem stop_le_horizon (h : interval ∈ intervals) : interval.stop ≤ horizon intervals := by
  induction intervals with
  | nil => cases h
  | cons first later ih =>
    show interval.stop ≤ max first.stop (horizon later)
    rcases List.mem_cons.mp h with rfl | h
    · exact Nat.le_max_left ..
    · exact Nat.le_trans (ih h) (Nat.le_max_right ..)

theorem pressureAt_le_pressure (intervals : List Interval) (index : Nat) :
    pressureAt intervals index ≤ pressure intervals := by
  by_cases h : index < horizon intervals
  · exact Finset.le_sup (f := pressureAt intervals) (Finset.mem_range.mpr h)
  · have hzero : pressureAt intervals index = 0 := by
      refine List.countP_eq_zero.mpr fun interval hmem hcontains => ?_
      have := stop_le_horizon hmem
      rw [Bool.and_eq_true, Interval.contains_iff] at hcontains
      omega
    omega

theorem lt_pressure_iff {n : Nat} :
    n < pressure intervals ↔ ∃ index, n < pressureAt intervals index := by
  constructor
  · intro h
    obtain ⟨index, _, hlt⟩ := Finset.lt_sup_iff.mp h
    exact ⟨index, hlt⟩
  · rintro ⟨index, h⟩
    exact Nat.lt_of_lt_of_le h (pressureAt_le_pressure intervals index)

theorem length_filter_ofIntervals (intervals : List Interval) (index : Nat) :
    ((Candidate.ofIntervals intervals).filter fun c => c.interval.contains index).length =
      pressureAt intervals index := by
  rw [((Candidate.ofIntervals_perm intervals).filter _).length_eq]
  have hcount : (Candidate.waiting intervals).countP (fun c => c.interval.contains index) =
      ((Candidate.waiting intervals).map Candidate.interval).countP
        (fun interval => interval.contains index) := by
    rw [List.countP_map]
    rfl
  rw [← List.countP_eq_length_filter, hcount, Candidate.map_interval_waiting,
    List.countP_filter, pressureAt]
  refine List.countP_congr fun interval _ => ?_
  simp [and_comm]

/-- More waiting intervals at one line than registers: somebody gets a slot. -/
theorem Scan.Inv.exists_slot {line : Nat} {scan : Scan}
    (hinv : Scan.Inv pool (Candidate.ofIntervals intervals) line scan)
    (h : pool < pressure intervals) :
    ∃ position number, scan.home? position = some (.slot number) := by
  obtain ⟨index, hlt⟩ := lt_pressure_iff.mp h
  by_contra hnone
  push Not at hnone
  rw [← length_filter_ofIntervals, ← List.length_map Candidate.position] at hlt
  refine Nat.not_le_of_lt hlt (hinv.length_le_pool index ?_ ?_)
  · exact (List.filter_sublist.map _).nodup (Candidate.ofIntervals_nodup intervals)
  · intro p hp
    obtain ⟨candidate, hfilter, rfl⟩ := List.mem_map.mp hp
    obtain ⟨hmem, hcontains⟩ := List.mem_filter.mp hfilter
    obtain ⟨home, hhome⟩ := Option.isSome_iff_exists.mp (hinv.placed candidate hmem)
    cases home with
    | register number => exact ⟨candidate.interval, number, hmem, hcontains, hhome⟩
    | slot number => exact absurd hhome (hnone _ _)

theorem exists_slot_of_lt_pressure (h : pool < pressure intervals) :
    ∃ position number, (Scan.ofIntervals pool intervals).home? position = some (.slot number) := by
  obtain ⟨line, hinv⟩ := Scan.exists_inv pool intervals
  exact hinv.exists_slot h

/-- When a visit finds no free register among the lowest ones, its tenants are at least as many.
They have different positions, have all been visited, and contain the line. -/
theorem Scan.Inv.tenants_crowd {seen : List Candidate} {line count : Nat} {scan : Scan}
    {candidate : Candidate} (hinv : Scan.Inv pool seen line scan)
    (hline : line ≤ candidate.interval.start)
    (hheld : ∀ number < count,
      number ∈ (scan.expire candidate.interval.start).value.active.map Tenant.number) :
    let active := (scan.expire candidate.interval.start).value.active
    count ≤ active.length ∧ (active.map fun t => t.candidate.position).Nodup ∧
      ∀ t ∈ active, t.candidate ∈ seen ∧
        t.candidate.interval.contains candidate.interval.start = true := by
  intro active
  have hkept := hinv.expire hline
  refine ⟨Scan.le_length_active hheld, hkept.position_nodup,
    fun t ht => ⟨(hkept.tenant t ht).1, ?_⟩⟩
  rw [Interval.contains_iff]
  exact ⟨hkept.started _ (hkept.tenant t ht).1, of_decide_eq_true (List.mem_filter.mp ht).2⟩

theorem Scan.Inv.lt_length_filter {seen rest : List Candidate} {line count : Nat} {scan : Scan}
    {candidate : Candidate} (hinv : Scan.Inv pool seen line scan)
    (hline : line ≤ candidate.interval.start)
    (hnodup : ((seen ++ candidate :: rest).map Candidate.position).Nodup)
    (hlt : candidate.interval.start < candidate.interval.stop)
    (hheld : ∀ number < count,
      number ∈ (scan.expire candidate.interval.start).value.active.map Tenant.number) :
    count < ((seen ++ candidate :: rest).filter fun c =>
      c.interval.contains candidate.interval.start).length := by
  obtain ⟨hcount, hpositions, htenant⟩ := hinv.tenants_crowd hline hheld
  set active := (scan.expire candidate.interval.start).value.active
  have htenants : (active.map Tenant.candidate).Nodup := by
    rw [← Function.comp_def Candidate.position Tenant.candidate, ← List.map_map] at hpositions
    exact hpositions.of_map _
  have hfresh : candidate ∉ active.map Tenant.candidate := by
    intro hmem
    obtain ⟨t, ht, rfl⟩ := List.mem_map.mp hmem
    exact Candidate.position_notMem hnodup (List.mem_map_of_mem (htenant t ht).1)
  have hsub : candidate :: active.map Tenant.candidate ⊆
      (seen ++ candidate :: rest).filter fun c =>
        c.interval.contains candidate.interval.start := by
    intro c hc
    rw [List.mem_filter]
    rcases List.mem_cons.mp hc with rfl | hc
    · exact ⟨by simp, Interval.contains_iff.mpr ⟨Nat.le_refl _, hlt⟩⟩
    · obtain ⟨t, ht, rfl⟩ := List.mem_map.mp hc
      exact ⟨List.mem_append_left _ (htenant t ht).1, (htenant t ht).2⟩
  have hlength := ((List.nodup_cons.mpr ⟨hfresh, htenants⟩).subperm hsub).length_le
  rw [List.length_cons, List.length_map] at hlength
  omega

theorem Scan.Inv.lt_pressure {seen rest : List Candidate} {line count : Nat} {scan : Scan}
    {candidate : Candidate} (hinv : Scan.Inv pool seen line scan)
    (hline : line ≤ candidate.interval.start)
    (hall : Candidate.ofIntervals intervals = seen ++ candidate :: rest)
    (hrange : ∀ interval ∈ intervals, interval.physical = none → interval.start < interval.stop)
    (hheld : ∀ number < count,
      number ∈ (scan.expire candidate.interval.start).value.active.map Tenant.number) :
    count < pressure intervals := by
  obtain ⟨hget, hwaiting⟩ := Candidate.mem_ofIntervals.mp
    (hall ▸ List.mem_append_right seen List.mem_cons_self)
  have hcrowd := hinv.lt_length_filter hline
    (hall ▸ Candidate.ofIntervals_nodup intervals)
    (hrange _ (List.mem_of_getElem? hget) hwaiting) hheld
  rw [← hall, length_filter_ofIntervals] at hcrowd
  exact Nat.lt_of_lt_of_le hcrowd (pressureAt_le_pressure intervals candidate.interval.start)

/-- No line has more waiting intervals than there are registers: nobody gets a slot. -/
theorem home?_ne_slot_of_pressure_le
    (hrange : ∀ interval ∈ intervals, interval.physical = none → interval.start < interval.stop)
    (h : pressure intervals ≤ pool) (position number : Nat) :
    (Scan.ofIntervals pool intervals).home? position ≠ some (.slot number) := by
  obtain ⟨⟨line, hinv⟩, hzero⟩ := Scan.run_induction pool
    (motive := fun _ scan => scan.nextSlot = 0) (Candidate.ofIntervals_pairwise intervals)
    (Candidate.ofIntervals_nodup intervals) rfl (by
      intro seen line scan candidate rest heq hinv hline hzero
      rcases Scan.visit_cases pool scan candidate with ⟨_, _, _, _, hvisit⟩ | ⟨hheld, _⟩
      · rw [hvisit]
        exact hzero
      · have := hinv.lt_pressure hline heq hrange hheld
        omega)
  intro hslot
  have hlt := (hinv.slot_iff number).mpr ⟨position, hslot⟩
  omega

end TurtleAlloc
