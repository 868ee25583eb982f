import Mathlib
import TurtleAlloc.Proofs.Allocation.Sharing

/-!
# How few intervals are spilled

Evicting the interval that lasts longest is a greedy choice.  It is the best one: no other choice of
intervals that the registers can hold is larger than the one that the scan arrives at.

* `Fits` — a choice of waiting intervals of which no line meets more than there are registers.
* `granted` — the intervals that allocation gives a register.
* `Fits.exchange` — a member of a choice may be replaced by an interval that meets no further line
  where the choice is full.
* `Rival` — a choice that agrees with the scan on the intervals visited so far.  A visit changes the
  rival by at most one exchange, and not its size (`Rival.visit`).
* `allocate_grants_most` — the granted intervals are a choice, and none is larger.
-/

namespace TurtleAlloc

variable {pool size : Nat} {intervals : List Interval} {positions rival : Finset Nat}

/-! ## Choices of intervals -/

/-- Whether the interval at a position contains a line. -/
def containsAt (intervals : List Interval) (position index : Nat) : Bool :=
  intervals[position]?.any fun interval => interval.contains index

/-- The positions of a choice whose intervals contain a line. -/
def crowd (intervals : List Interval) (positions : Finset Nat) (index : Nat) : Finset Nat :=
  positions.filter fun position => containsAt intervals position index

/-- A choice of intervals without a register, no line being in more of them than there are
registers. -/
structure Fits (pool : Nat) (intervals : List Interval) (positions : Finset Nat) : Prop where
  waiting : ∀ p ∈ positions, intervals[p]?.map Interval.physical = some none
  crowd_le : ∀ index, (crowd intervals positions index).card ≤ pool

/-- The positions of the intervals that came without a register and get one. -/
def granted (pool : Nat) (intervals : List Interval) : Finset Nat :=
  (Finset.range intervals.length).filter fun p =>
    intervals[p]?.map Interval.physical = some none ∧
      ((allocate pool intervals).value[p]?.bind Interval.physical).isSome

theorem mem_crowd {position index : Nat} : position ∈ crowd intervals positions index ↔
    position ∈ positions ∧ containsAt intervals position index = true :=
  Finset.mem_filter

theorem containsAt_iff {position index : Nat} : containsAt intervals position index = true ↔
    ∃ interval, intervals[position]? = some interval ∧ interval.contains index = true := by
  unfold containsAt
  cases intervals[position]? <;> simp

/-- Behind all intervals there is no crowd, so it is enough to look at the lines in front. -/
theorem fits_iff : Fits pool intervals positions ↔
    (∀ p ∈ positions, intervals[p]?.map Interval.physical = some none) ∧
      ∀ index < horizon intervals, (crowd intervals positions index).card ≤ pool := by
  refine ⟨fun h => ⟨h.waiting, fun index _ => h.crowd_le index⟩, fun h => ⟨h.1, fun index => ?_⟩⟩
  by_cases hindex : index < horizon intervals
  · exact h.2 index hindex
  · have hempty : crowd intervals positions index = ∅ := by
      refine Finset.filter_eq_empty_iff.mpr fun position _ hcontains => ?_
      obtain ⟨interval, hget, hcontains⟩ := containsAt_iff.mp hcontains
      have := stop_le_horizon (List.mem_of_getElem? hget)
      rw [Interval.contains_iff] at hcontains
      omega
    rw [hempty]
    exact Nat.zero_le _

instance : Decidable (Fits pool intervals positions) :=
  decidable_of_iff' _ fits_iff

/-- **Replacing one member.**  The new interval must not contain a line that the old one does not
contain, unless there is room at that line. -/
theorem Fits.exchange {old new : Nat} (h : Fits pool intervals positions) (hold : old ∈ positions)
    (hnew : new ∉ positions) (hwaiting : intervals[new]?.map Interval.physical = some none)
    (hroom : ∀ index, containsAt intervals new index = true →
      containsAt intervals old index = true ∨
        (crowd intervals (insert new (positions.erase old)) index).card ≤ pool) :
    Fits pool intervals (insert new (positions.erase old)) := by
  refine ⟨fun p hp => ?_, fun index => ?_⟩
  · rcases Finset.mem_insert.mp hp with rfl | hp
    · exact hwaiting
    · exact h.waiting p (Finset.mem_of_mem_erase hp)
  · by_cases hcontains : containsAt intervals new index = true
    · rcases hroom index hcontains with hcontains' | hle
      · have heq : crowd intervals (insert new (positions.erase old)) index =
            insert new ((crowd intervals positions index).erase old) := by
          rw [crowd, Finset.filter_insert, if_pos hcontains, Finset.filter_erase]
          rfl
        have hmem : old ∈ crowd intervals positions index := mem_crowd.mpr ⟨hold, hcontains'⟩
        calc (crowd intervals (insert new (positions.erase old)) index).card
            ≤ ((crowd intervals positions index).erase old).card + 1 :=
              heq ▸ Finset.card_insert_le ..
          _ = (crowd intervals positions index).card := Finset.card_erase_add_one hmem
          _ ≤ pool := h.crowd_le index
      · exact hle
    · have hsub : crowd intervals (insert new (positions.erase old)) index ⊆
          crowd intervals positions index := by
        intro p hp
        obtain ⟨hp, hcontains'⟩ := mem_crowd.mp hp
        rcases Finset.mem_insert.mp hp with rfl | hp
        · exact absurd hcontains' hcontains
        · exact mem_crowd.mpr ⟨Finset.mem_of_mem_erase hp, hcontains'⟩
      exact Nat.le_trans (Finset.card_le_card hsub) (h.crowd_le index)

theorem card_insert_erase {old new : Nat} (hold : old ∈ positions) (hnew : new ∉ positions) :
    (insert new (positions.erase old)).card = positions.card := by
  rw [Finset.card_insert_of_notMem fun h => hnew (Finset.mem_of_mem_erase h),
    Finset.card_erase_add_one hold]

/-! ## The rival of a scan -/

/-- A choice of at least `size` intervals that agrees with the scan so far: its members that have
been visited hold a register. -/
structure Rival (pool size : Nat) (intervals : List Interval) (seen : List Candidate) (scan : Scan)
    (rival : Finset Nat) : Prop where
  fits : Fits pool intervals rival
  size_le : size ≤ rival.card
  held : ∀ c ∈ seen, c.position ∈ rival → ∃ number, scan.home? c.position = some (.register number)

namespace Rival

variable {seen rest : List Candidate} {line : Nat} {scan : Scan} {candidate : Candidate}

section Visit

variable (hinv : Scan.Inv pool seen line scan) (hline : line ≤ candidate.interval.start)
  (hall : Candidate.ofIntervals intervals = seen ++ candidate :: rest)
  (hlt : candidate.interval.start < candidate.interval.stop)

include hall in
theorem mem_seen {c : Candidate} (hc : c ∈ Candidate.ofIntervals intervals)
    (hstart : c.interval.start < candidate.interval.start) : c ∈ seen := by
  have hsorted := Candidate.ofIntervals_pairwise intervals
  rw [hall, List.pairwise_append, List.pairwise_cons] at hsorted
  rw [hall] at hc
  rcases List.mem_append.mp hc with hc | hc
  · exact hc
  · rcases List.mem_cons.mp hc with rfl | hc
    · omega
    · have := hsorted.2.1.1 c hc
      omega

include hinv hall in
theorem card_crowd_le (hwaiting : ∀ p ∈ positions, intervals[p]?.map Interval.physical = some none)
    (hheld : ∀ c ∈ seen, c.position ∈ positions →
      ∃ number, scan.home? c.position = some (.register number))
    {index : Nat} (hindex : index < candidate.interval.start) :
    (crowd intervals positions index).card ≤ pool := by
  rw [← Finset.length_toList]
  refine hinv.length_le_pool index (Finset.nodup_toList _) fun p hp => ?_
  obtain ⟨hp, hcontains⟩ := mem_crowd.mp (Finset.mem_toList.mp hp)
  obtain ⟨interval, hget, hcontains⟩ := containsAt_iff.mp hcontains
  have hnone : interval.physical = none := by simpa [hget] using hwaiting p hp
  have hmem : ⟨p, interval⟩ ∈ Candidate.ofIntervals intervals :=
    Candidate.mem_ofIntervals.mpr ⟨hget, hnone⟩
  have hseen := mem_seen hall hmem
    (Nat.lt_of_le_of_lt (Interval.contains_iff.mp hcontains).1 hindex)
  obtain ⟨number, hhome⟩ := hheld _ hseen hp
  exact ⟨interval, number, hseen, hcontains, hhome⟩

include hinv hline hall hlt in
/-- When no register is free, a choice with the visited interval leaves out one of the tenants. -/
theorem exists_tenant_notMem (hfits : Fits pool intervals rival)
    (hheld : ∀ number < pool,
      number ∈ (scan.expire candidate.interval.start).value.active.map Tenant.number)
    (hmem : candidate.position ∈ rival) :
    ∃ t ∈ (scan.expire candidate.interval.start).value.active, t.candidate.position ∉ rival := by
  obtain ⟨hpool, hpositions, htenant⟩ := hinv.tenants_crowd hline hheld
  set active := (scan.expire candidate.interval.start).value.active
  by_contra hnone
  push Not at hnone
  have hget : ∀ c ∈ seen ++ [candidate], c.interval.contains candidate.interval.start = true →
      containsAt intervals c.position candidate.interval.start = true := by
    intro c hc hcontains
    have hmem : c ∈ Candidate.ofIntervals intervals := by
      rw [hall, List.append_cons]
      exact List.mem_append_left _ hc
    exact containsAt_iff.mpr ⟨_, (Candidate.mem_ofIntervals.mp hmem).1, hcontains⟩
  have hfresh : candidate.position ∉ active.map fun t => t.candidate.position := by
    intro h
    obtain ⟨t, ht, heq⟩ := List.mem_map.mp h
    refine Candidate.position_notMem (hall ▸ Candidate.ofIntervals_nodup intervals) ?_
    exact heq ▸ List.mem_map_of_mem (htenant t ht).1
  have hsub : candidate.position :: (active.map fun t => t.candidate.position) ⊆
      (crowd intervals rival candidate.interval.start).toList := by
    intro p hp
    rw [Finset.mem_toList, mem_crowd]
    rcases List.mem_cons.mp hp with rfl | hp
    · exact ⟨hmem, hget candidate (by simp) (Interval.contains_iff.mpr ⟨Nat.le_refl _, hlt⟩)⟩
    · obtain ⟨t, ht, rfl⟩ := List.mem_map.mp hp
      exact ⟨hnone t ht, hget _ (List.mem_append_left _ (htenant t ht).1) (htenant t ht).2⟩
  have hlength := ((List.nodup_cons.mpr ⟨hfresh, hpositions⟩).subperm hsub).length_le
  rw [Finset.length_toList, List.length_cons, List.length_map] at hlength
  have := hfits.crowd_le candidate.interval.start
  omega

include hinv hline hall in
/-- A tenant can take the place of a member that does not start later than the visited interval and
lasts at least as long as the tenant. -/
theorem exchange_tenant (h : Rival pool size intervals seen scan rival) {tenant : Tenant}
    (htenant : tenant ∈ (scan.expire candidate.interval.start).value.active)
    (hnew : tenant.candidate.position ∉ rival) {old : Candidate}
    (hget : intervals[old.position]? = some old.interval) (hold : old.position ∈ rival)
    (hstart : old.interval.start ≤ candidate.interval.start)
    (hstop : tenant.stop ≤ old.interval.stop) :
    Rival pool size intervals seen scan
      (insert tenant.candidate.position (rival.erase old.position)) := by
  obtain ⟨hseen, _, hhome⟩ := (hinv.expire hline).tenant tenant htenant
  obtain ⟨hget', hnone⟩ := Candidate.mem_ofIntervals.mp
    (hall ▸ List.mem_append_left (candidate :: rest) hseen)
  have hwaiting : intervals[tenant.candidate.position]?.map Interval.physical = some none := by
    rw [hget', Option.map_some, hnone]
  have hheld : ∀ c ∈ seen,
      c.position ∈ insert tenant.candidate.position (rival.erase old.position) →
        ∃ number, scan.home? c.position = some (.register number) := by
    intro c hc hp
    rcases Finset.mem_insert.mp hp with heq | hp
    · exact ⟨tenant.number, heq ▸ hhome⟩
    · exact h.held c hc (Finset.mem_of_mem_erase hp)
  refine ⟨h.fits.exchange hold hnew hwaiting fun index hcontains => ?_,
    h.size_le.trans_eq (card_insert_erase hold hnew).symm, hheld⟩
  -- the choice has room in front of the visited interval; behind its start the old member was there
  by_cases hindex : index < candidate.interval.start
  · refine .inr (card_crowd_le hinv hall (fun p hp => ?_) hheld hindex)
    rcases Finset.mem_insert.mp hp with rfl | hp
    · exact hwaiting
    · exact h.fits.waiting p (Finset.mem_of_mem_erase hp)
  · obtain ⟨interval, hinterval, hcontains⟩ := containsAt_iff.mp hcontains
    cases hget'.symm.trans hinterval
    rw [Interval.contains_iff] at hcontains
    refine .inl (containsAt_iff.mpr ⟨_, hget, Interval.contains_iff.mpr ⟨by omega, ?_⟩⟩)
    exact Nat.lt_of_lt_of_le hcontains.2 hstop

include hall in
theorem exchange_visited (h : Rival pool size intervals seen scan rival)
    (hfresh : ∀ c ∈ seen, c.position ≠ candidate.position)
    (hnew : candidate.position ∉ rival) {old : Candidate} (hseen : old ∈ seen)
    (hold : old.position ∈ rival) (hstart : old.interval.start ≤ candidate.interval.start)
    (hstop : candidate.interval.stop < old.interval.stop) :
    Rival pool size intervals seen scan (insert candidate.position (rival.erase old.position)) := by
  obtain ⟨hget, _⟩ := Candidate.mem_ofIntervals.mp
    (hall ▸ List.mem_append_left (candidate :: rest) hseen)
  obtain ⟨hget', hnone⟩ := Candidate.mem_ofIntervals.mp
    (hall ▸ List.mem_append_right seen List.mem_cons_self)
  have hwaiting : intervals[candidate.position]?.map Interval.physical = some none := by
    rw [hget', Option.map_some, hnone]
  refine ⟨h.fits.exchange hold hnew hwaiting fun index hcontains => .inl ?_,
    h.size_le.trans_eq (card_insert_erase hold hnew).symm, fun c hc hp => ?_⟩
  · obtain ⟨interval, hinterval, hcontains⟩ := containsAt_iff.mp hcontains
    cases hget'.symm.trans hinterval
    rw [Interval.contains_iff] at hcontains
    exact containsAt_iff.mpr ⟨_, hget, Interval.contains_iff.mpr ⟨by omega, by omega⟩⟩
  · rcases Finset.mem_insert.mp hp with heq | hp
    · exact absurd heq (hfresh c hc)
    · exact h.held c hc (Finset.mem_of_mem_erase hp)

theorem expire (h : Rival pool size intervals seen scan rival) (line : Nat) :
    Rival pool size intervals seen (scan.expire line).value rival :=
  ⟨h.fits, h.size_le, h.held⟩

theorem assign (h : Rival pool size intervals seen scan rival) (candidate : Candidate)
    (number : Nat) :
    Rival pool size intervals (seen ++ [candidate]) (scan.assign candidate number).value rival := by
  refine ⟨h.fits, h.size_le, fun c hc hp => ?_⟩
  rw [Scan.home?_assign]
  split_ifs with hposition
  · exact ⟨number, rfl⟩
  · rcases List.mem_append.mp hc with hc | hc
    · exact h.held c hc hp
    · exact absurd (congrArg _ (List.mem_singleton.mp hc)) hposition

theorem spill (h : Rival pool size intervals seen scan rival)
    (hnew : candidate.position ∉ rival) :
    Rival pool size intervals (seen ++ [candidate]) (scan.spill candidate).value rival := by
  refine ⟨h.fits, h.size_le, fun c hc hp => ?_⟩
  have hne : c.position ≠ candidate.position := fun heq => hnew (heq ▸ hp)
  rw [Scan.home?_spill, if_neg hne]
  rcases List.mem_append.mp hc with hc | hc
  · exact h.held c hc hp
  · exact absurd (congrArg _ (List.mem_singleton.mp hc)) hne

theorem unseat (h : Rival pool size intervals seen scan rival) {tenant : Tenant}
    (others : List Tenant) (hnew : tenant.candidate.position ∉ rival) :
    Rival pool size intervals seen (scan.unseat tenant others) rival := by
  refine ⟨h.fits, h.size_le, fun c hc hp => ?_⟩
  have hne : c.position ≠ tenant.candidate.position := fun heq => hnew (heq ▸ hp)
  rw [Scan.home?_unseat, if_neg hne]
  exact h.held c hc hp

include hinv hline hall hlt in
/-- **A visit costs a rival nothing.**  If the interval that goes to a slot is a member, another one
takes its place: a tenant that the rival left out, or the visited interval. -/
theorem visit (h : Rival pool size intervals seen scan rival) :
    ∃ next, Rival pool size intervals (seen ++ [candidate]) (scan.visit pool candidate).value
      next := by
  have hkept := h.expire candidate.interval.start
  have htenant := (hinv.expire hline).tenant
  have hfresh : ∀ c ∈ seen, c.position ≠ candidate.position := by
    intro c hc heq
    refine Candidate.position_notMem (hall ▸ Candidate.ofIntervals_nodup intervals) ?_
    exact heq ▸ List.mem_map_of_mem hc
  rcases Scan.visit_cases pool scan candidate with
    ⟨number, _, _, _, hvisit⟩ | ⟨hheld, ⟨hlongest, hvisit⟩ |
      ⟨evicted, others, htake, hstop, hvisit⟩⟩
  · rw [hvisit]
    exact ⟨rival, hkept.assign candidate number⟩
  · rw [hvisit]
    by_cases hmem : candidate.position ∈ rival
    · obtain ⟨t, ht, hnew⟩ := exists_tenant_notMem hinv hline hall hlt h.fits hheld hmem
      obtain ⟨hget, _⟩ := Candidate.mem_ofIntervals.mp
        (hall ▸ List.mem_append_right seen List.mem_cons_self)
      have hnext := h.exchange_tenant hinv hline hall ht hnew hget hmem (Nat.le_refl _)
        (hlongest t ht)
      refine ⟨_, (hnext.expire _).spill ?_⟩
      simpa using (hfresh _ (htenant t ht).1).symm
    · exact ⟨rival, hkept.spill hmem⟩
  · rw [hvisit, Scan.evict_eq_assign_unseat]
    have hseen := (htenant evicted (Tenant.mem_of_takeLongest htake)).1
    have hstart := (hinv.expire hline).started _ hseen
    by_cases hmem : evicted.candidate.position ∈ rival
    · by_cases hvisited : candidate.position ∈ rival
      · obtain ⟨t, ht, hnew⟩ := exists_tenant_notMem hinv hline hall hlt h.fits hheld hvisited
        obtain ⟨hget, _⟩ := Candidate.mem_ofIntervals.mp
          (hall ▸ List.mem_append_left (candidate :: rest) hseen)
        have hnext := h.exchange_tenant hinv hline hall ht hnew hget hmem hstart
          (Tenant.stop_le_of_takeLongest htake ht)
        refine ⟨_, ((hnext.expire _).unseat others ?_).assign candidate evicted.number⟩
        have hne : evicted.candidate.position ≠ t.candidate.position :=
          fun heq => hnew (heq ▸ hmem)
        simpa using hne
      · have hnext := h.exchange_visited hall hfresh hvisited hseen hmem hstart hstop
        refine ⟨_, ((hnext.expire _).unseat others ?_).assign candidate evicted.number⟩
        simpa using hfresh _ hseen
    · exact ⟨rival, (hkept.unseat others hmem).assign candidate evicted.number⟩

end Visit

end Rival

/-! ## The best choice -/

theorem mem_granted {position : Nat} : position ∈ granted pool intervals ↔
    intervals[position]?.map Interval.physical = some none ∧
      ∃ number, (Scan.ofIntervals pool intervals).home? position = some (.register number) := by
  unfold granted
  rw [Finset.mem_filter, Finset.mem_range]
  constructor
  · rintro ⟨_, hwaiting, hsome⟩
    refine ⟨hwaiting, ?_⟩
    obtain ⟨interval, hget, hnone⟩ := Option.map_eq_some_iff.mp hwaiting
    obtain ⟨home, hhome, hresult⟩ := getElem?_allocate_of_waiting pool hget hnone
    rw [hresult, Option.bind_some, Option.isSome_iff_exists] at hsome
    obtain ⟨name, hname⟩ := hsome
    obtain ⟨number, rfl, _⟩ := Interval.physical_keepIn_eq_some hnone hname
    exact ⟨number, hhome⟩
  · rintro ⟨hwaiting, number, hhome⟩
    obtain ⟨interval, hget, hnone⟩ := Option.map_eq_some_iff.mp hwaiting
    obtain ⟨home, hhome', hresult⟩ := getElem?_allocate_of_waiting pool hget hnone
    cases hhome.symm.trans hhome'
    refine ⟨(List.getElem?_eq_some_iff.mp hget).1, hwaiting, ?_⟩
    rw [hresult]
    rfl

theorem fits_granted (pool : Nat) (intervals : List Interval) :
    Fits pool intervals (granted pool intervals) := by
  refine ⟨fun p hp => (mem_granted.mp hp).1, fun index => ?_⟩
  rw [← Finset.length_toList]
  refine length_le_pool intervals index (Finset.nodup_toList _) fun p hp => ?_
  obtain ⟨hp, hcontains⟩ := mem_crowd.mp (Finset.mem_toList.mp hp)
  obtain ⟨hwaiting, number, hhome⟩ := mem_granted.mp hp
  obtain ⟨interval, hget, hcontains⟩ := containsAt_iff.mp hcontains
  have hnone : interval.physical = none := by simpa [hget] using hwaiting
  exact ⟨interval, number, Candidate.mem_ofIntervals.mpr ⟨hget, hnone⟩, hcontains, hhome⟩

/-- **As few intervals as possible are spilled.**  If no interval without a register is empty, then
those that get one are a choice that fits the pool, and no choice that fits is larger. -/
theorem allocate_grants_most (pool : Nat)
    (hrange : ∀ interval ∈ intervals, interval.physical = none → interval.start < interval.stop) :
    Fits pool intervals (granted pool intervals) ∧
      ∀ positions, Fits pool intervals positions →
        positions.card ≤ (granted pool intervals).card := by
  refine ⟨fits_granted pool intervals, fun positions hfits => ?_⟩
  have hstart : Rival pool positions.card intervals [] {} positions :=
    ⟨hfits, Nat.le_refl _, fun c hc => by cases hc⟩
  obtain ⟨_, rival, hrival⟩ := Scan.run_induction pool
    (motive := fun seen scan => ∃ rival, Rival pool positions.card intervals seen scan rival)
    (Candidate.ofIntervals_pairwise intervals) (Candidate.ofIntervals_nodup intervals)
    ⟨positions, hstart⟩ (by
      intro seen line scan candidate rest hall hinv hline ⟨rival, h⟩
      obtain ⟨hget, hnone⟩ := Candidate.mem_ofIntervals.mp
        (hall ▸ List.mem_append_right seen List.mem_cons_self)
      exact h.visit hinv hline hall (hrange _ (List.mem_of_getElem? hget) hnone))
  have hsub : rival ⊆ granted pool intervals := by
    intro p hp
    have hwaiting := hrival.fits.waiting p hp
    obtain ⟨interval, hget, hnone⟩ := Option.map_eq_some_iff.mp hwaiting
    exact mem_granted.mpr ⟨hwaiting,
      hrival.held ⟨p, interval⟩ (Candidate.mem_ofIntervals.mpr ⟨hget, hnone⟩) hp⟩
  exact Nat.le_trans hrival.size_le (Finset.card_le_card hsub)

/-- Two registers, six intervals and one that has a register of its own: `a` and `d` are evicted,
and the four others are as many as any choice has that fits. -/
theorem allocate_grants_most_six :
    let intervals : List Interval := [⟨"a", 0, 9, none, none⟩, ⟨"b", 1, 4, none, none⟩,
      ⟨"fp", 0, 9, some "fp", none⟩, ⟨"c", 2, 5, none, none⟩, ⟨"d", 4, 9, none, none⟩,
      ⟨"e", 5, 7, none, none⟩, ⟨"f", 6, 8, none, none⟩]
    (∀ interval ∈ intervals, interval.physical = none → interval.start < interval.stop) ∧
      Fits 2 intervals {0, 1, 5} ∧ granted 2 intervals = {1, 3, 5, 6} ∧
      Fits 2 intervals (granted 2 intervals) ∧
      ∀ positions, Fits 2 intervals positions → positions.card ≤ 4 := by
  intro intervals
  have hrange : ∀ interval ∈ intervals, interval.physical = none →
      interval.start < interval.stop := by decide
  have hgranted : granted 2 intervals = {1, 3, 5, 6} := by decide +kernel
  obtain ⟨hfits, hmost⟩ := allocate_grants_most 2 hrange
  refine ⟨hrange, by decide +kernel, hgranted, hfits, fun positions h => ?_⟩
  have hle := hmost positions h
  rw [hgranted] at hle
  exact hle

end TurtleAlloc
