import Mathlib
import TurtleAlloc.Allocation

/-!
# The linear scan, visit by visit

* `mem_ofIntervals`, `ofIntervals_precedes`, `ofIntervals_nodup` — which intervals a scan visits:
  those without a register, by start and then by position, each position once.
* `Scan.Inv` — the invariant between two visits.  It ties the tenants to the places given out: a
  visited interval that holds a register is a tenant, or it has ended; of two that hold the same
  register one ends before the other starts; slots are numbered without gaps and never shared.
* `Scan.Inv.expire`, `Scan.Inv.assign`, `Scan.Inv.spill`, `Scan.Inv.evict` — each operation keeps
  it, hence so does a visit (`Scan.Inv.visit`) and a run (`Scan.run_induction`).
* `Scan.exists_inv_before`, `Scan.exists_inv` — the invariant in front of a visit, and at the end of
  an allocation.
-/

namespace TurtleAlloc

/-! ## The order of the visits -/

namespace Candidate

theorem insert_perm (candidate : Candidate) (candidates : List Candidate) :
    (insert candidate candidates).Perm (candidate :: candidates) := by
  induction candidates with
  | nil => exact .refl _
  | cons next later ih =>
    unfold insert
    split
    · exact .refl _
    · exact (ih.cons next).trans (.swap ..)

theorem sort_perm (candidates : List Candidate) : (sort candidates).Perm candidates := by
  induction candidates with
  | nil => exact .refl _
  | cons candidate later ih => exact (insert_perm candidate (sort later)).trans (ih.cons candidate)

/-- The first of two candidates starts earlier, or stands in front at an equal start. -/
def Precedes (a b : Candidate) : Prop :=
  a.interval.start < b.interval.start ∨
    a.interval.start = b.interval.start ∧ a.position < b.position

theorem insert_precedes {candidate : Candidate} {candidates : List Candidate}
    (hfront : ∀ c ∈ candidates, candidate.position < c.position)
    (h : candidates.Pairwise Precedes) : (insert candidate candidates).Pairwise Precedes := by
  induction candidates with
  | nil => simp [insert]
  | cons next later ih =>
    obtain ⟨hnext, hlater⟩ := List.pairwise_cons.mp h
    unfold insert
    split
    · rename_i hle
      refine List.pairwise_cons.mpr ⟨fun c hc => ?_, h⟩
      have hposition := hfront c hc
      have hstart : candidate.interval.start ≤ c.interval.start := by
        rcases List.mem_cons.mp hc with rfl | hc
        · exact hle
        · rcases hnext c hc with hlt | ⟨heq, _⟩ <;> omega
      unfold Precedes
      omega
    · rename_i hlt
      refine List.pairwise_cons.mpr
        ⟨fun c hc => ?_, ih (fun c hc => hfront c (List.mem_cons_of_mem _ hc)) hlater⟩
      rcases List.mem_cons.mp ((insert_perm candidate later).mem_iff.mp hc) with rfl | hc
      · exact .inl (Nat.lt_of_not_le hlt)
      · exact hnext c hc

theorem sort_precedes {candidates : List Candidate}
    (h : candidates.Pairwise fun a b => a.position < b.position) :
    (sort candidates).Pairwise Precedes := by
  induction candidates with
  | nil => exact .nil
  | cons candidate later ih =>
    obtain ⟨hfront, hlater⟩ := List.pairwise_cons.mp h
    exact insert_precedes (fun c hc => hfront c ((sort_perm later).mem_iff.mp hc)) (ih hlater)

theorem waiting_pairwise (intervals : List Interval) :
    (waiting intervals).Pairwise fun a b => a.position < b.position := by
  refine (zipIdx_pairwise intervals).filterMap _ ?_
  rintro ⟨a, i⟩ ⟨b, j⟩ hlt c hc d hd
  simp only [Option.ite_none_right_eq_some, Option.some.injEq] at hc hd
  obtain ⟨_, rfl⟩ := hc
  obtain ⟨_, rfl⟩ := hd
  exact hlt

theorem ofIntervals_perm (intervals : List Interval) :
    (ofIntervals intervals).Perm (waiting intervals) :=
  sort_perm _

theorem map_interval_waiting (intervals : List Interval) :
    (waiting intervals).map interval = intervals.filter fun i => i.physical.isNone := by
  have hfst : intervals = intervals.zipIdx.map Prod.fst := (List.zipIdx_map_fst ..).symm
  rw [waiting]
  conv_rhs => rw [hfst]
  induction intervals.zipIdx with
  | nil => rfl
  | cons entry later ih =>
    by_cases h : entry.1.physical.isNone <;> simp_all

/-- A scan visits exactly the intervals that have no register yet. -/
theorem mem_ofIntervals {candidate : Candidate} {intervals : List Interval} :
    candidate ∈ ofIntervals intervals ↔
      intervals[candidate.position]? = some candidate.interval ∧
        candidate.interval.physical = none := by
  rw [(ofIntervals_perm intervals).mem_iff, waiting, List.mem_filterMap]
  constructor
  · rintro ⟨⟨interval, position⟩, hmem, h⟩
    rw [List.mem_zipIdx_iff_getElem?] at hmem
    simp only [Option.isNone_iff_eq_none] at h
    split at h
    · rename_i hnone
      cases h
      exact ⟨hmem, hnone⟩
    · cases h
  · rintro ⟨hget, hnone⟩
    exact ⟨(candidate.interval, candidate.position), List.mem_zipIdx_iff_getElem?.mpr hget,
      by simp [hnone]⟩

/-- Candidates are visited by start, and by position where starts are equal. -/
theorem ofIntervals_precedes (intervals : List Interval) :
    (ofIntervals intervals).Pairwise Precedes :=
  sort_precedes (waiting_pairwise intervals)

theorem ofIntervals_pairwise (intervals : List Interval) :
    (ofIntervals intervals).Pairwise fun a b => a.interval.start ≤ b.interval.start := by
  refine (ofIntervals_precedes intervals).imp fun h => ?_
  unfold Precedes at h
  omega

/-- No position is visited twice. -/
theorem ofIntervals_nodup (intervals : List Interval) :
    ((ofIntervals intervals).map position).Nodup := by
  rw [((ofIntervals_perm intervals).map position).nodup_iff]
  exact List.pairwise_map.mpr ((waiting_pairwise intervals).imp Nat.ne_of_lt)

theorem position_notMem {seen rest : List Candidate} {candidate : Candidate}
    (hnodup : ((seen ++ candidate :: rest).map position).Nodup) :
    candidate.position ∉ seen.map position := by
  rw [List.map_append, List.map_cons, List.nodup_append] at hnodup
  exact fun hmem => hnodup.2.2 _ hmem _ List.mem_cons_self rfl

end Candidate

/-! ## What a visit does to the places -/

namespace Scan

variable {pool line : Nat} {seen : List Candidate} {scan : Scan} {candidate : Candidate}

theorem lookup_cons_home (position here : Nat) (home : Home) (homes : List (Nat × Home)) :
    List.lookup position ((here, home) :: homes) =
      if position = here then some home else List.lookup position homes := by
  rw [List.lookup_cons]
  by_cases h : position = here
  · rw [if_pos h, beq_iff_eq.mpr h]
  · rw [if_neg h, beq_eq_false_iff_ne.mpr h]

@[simp] theorem home?_expire (line : Nat) (scan : Scan) (position : Nat) :
    (scan.expire line).value.home? position = scan.home? position := rfl

@[simp] theorem home?_assign (candidate : Candidate) (number : Nat) (scan : Scan)
    (position : Nat) :
    (scan.assign candidate number).value.home? position =
      if position = candidate.position then some (.register number) else scan.home? position :=
  lookup_cons_home ..

@[simp] theorem home?_spill (candidate : Candidate) (scan : Scan) (position : Nat) :
    (scan.spill candidate).value.home? position =
      if position = candidate.position then some (.slot scan.nextSlot)
      else scan.home? position :=
  lookup_cons_home ..

/-- The scan with a tenant moved to the next spill slot, its register not yet handed over. -/
def unseat (tenant : Tenant) (others : List Tenant) (scan : Scan) : Scan where
  active := others
  homes := (tenant.candidate.position, .slot scan.nextSlot) :: scan.homes
  nextSlot := scan.nextSlot + 1

@[simp] theorem home?_unseat (tenant : Tenant) (others : List Tenant) (scan : Scan)
    (position : Nat) :
    (scan.unseat tenant others).home? position =
      if position = tenant.candidate.position then some (.slot scan.nextSlot)
      else scan.home? position :=
  lookup_cons_home ..

theorem evict_eq_assign_unseat (tenant : Tenant) (others : List Tenant) (candidate : Candidate)
    (scan : Scan) :
    (scan.evict tenant others candidate).value =
      ((scan.unseat tenant others).assign candidate tenant.number).value := rfl

/-- **What one visit can do.**  Among the tenants that have not ended, the candidate takes the
lowest free register; or all registers are held, and it goes to a slot because no tenant lasts
longer, or the tenant that lasts longest does. -/
theorem visit_cases (pool : Nat) (scan : Scan) (candidate : Candidate) :
    let kept := (scan.expire candidate.interval.start).value
    (∃ number < pool, number ∉ kept.active.map Tenant.number ∧
      (∀ lower < number, lower ∈ kept.active.map Tenant.number) ∧
      (scan.visit pool candidate).value = (kept.assign candidate number).value) ∨
    (∀ number < pool, number ∈ kept.active.map Tenant.number) ∧
      ((∀ tenant ∈ kept.active, tenant.stop ≤ candidate.interval.stop) ∧
        (scan.visit pool candidate).value = (kept.spill candidate).value ∨
      ∃ tenant others, Tenant.takeLongest kept.active = some (tenant, others) ∧
        candidate.interval.stop < tenant.stop ∧
        (scan.visit pool candidate).value = (kept.evict tenant others candidate).value) := by
  intro kept
  have hvisit : (scan.visit pool candidate).value = (kept.place pool candidate).value := rfl
  rw [hvisit]
  unfold place
  split
  · rename_i number hfree
    obtain ⟨⟨_, hlt⟩, hnot, hlower⟩ := lowestFree_eq_some_iff.mp hfree
    exact .inl ⟨number, by omega, hnot, fun lower h => hlower lower (by omega) h, rfl⟩
  · rename_i hfree
    have hheld := lowestFree_eq_none_iff.mp hfree
    refine .inr ⟨fun number hlt => hheld number (by omega) (by omega), ?_⟩
    split
    · rename_i hnone
      refine .inl ⟨fun tenant hmem => ?_, rfl⟩
      rw [Tenant.takeLongest_eq_none_iff.mp hnone] at hmem
      cases hmem
    · rename_i tenant others htake
      split
      · rename_i hlt
        exact .inr ⟨tenant, others, htake, hlt, rfl⟩
      · rename_i hle
        refine .inl ⟨fun other hmem => ?_, rfl⟩
        exact Nat.le_trans (Tenant.stop_le_of_takeLongest htake hmem) (Nat.le_of_not_lt hle)

/-- No free register below a bound: there are at least as many tenants. -/
theorem le_length_active {count : Nat}
    (hheld : ∀ number < count, number ∈ scan.active.map Tenant.number) :
    count ≤ scan.active.length := by
  have hsub : List.range count ⊆ scan.active.map Tenant.number :=
    fun number h => hheld number (List.mem_range.mp h)
  simpa using (List.nodup_range.subperm hsub).length_le

/-! ## The invariant -/

/-- What holds between two visits, `seen` being the candidates visited so far and `line` the
latest of their starts. -/
structure Inv (pool : Nat) (seen : List Candidate) (line : Nat) (scan : Scan) : Prop where
  started : ∀ c ∈ seen, c.interval.start ≤ line
  placed : ∀ c ∈ seen, (scan.home? c.position).isSome
  known : ∀ position, (scan.home? position).isSome → position ∈ seen.map Candidate.position
  tenant : ∀ t ∈ scan.active, t.candidate ∈ seen ∧ t.number < pool ∧
    scan.home? t.candidate.position = some (.register t.number)
  tenant_nodup : (scan.active.map Tenant.number).Nodup
  /-- A register is held as long as its interval lasts. -/
  holds : ∀ c ∈ seen, ∀ number, scan.home? c.position = some (.register number) →
    number < pool ∧ (⟨c, number⟩ ∈ scan.active ∨ c.interval.stop ≤ line)
  /-- Nobody else gets it before. -/
  exclusive : ∀ c ∈ seen, ∀ d ∈ seen, c.position ≠ d.position → ∀ number,
    scan.home? c.position = some (.register number) →
    scan.home? d.position = some (.register number) → c.interval.overlaps d.interval = false
  slot_iff : ∀ number, number < scan.nextSlot ↔
    ∃ position, scan.home? position = some (.slot number)
  slot_inj : ∀ p q number, scan.home? p = some (.slot number) →
    scan.home? q = some (.slot number) → p = q

namespace Inv

theorem empty (pool : Nat) : Inv pool [] 0 {} := by
  refine ⟨?_, ?_, ?_, ?_, ?_, ?_, ?_, ?_, ?_⟩ <;> simp [home?]

/-- Tenants are told apart by their positions. -/
theorem number_eq_of_position (hinv : Inv pool seen line scan) {t u : Tenant}
    (ht : t ∈ scan.active) (hu : u ∈ scan.active)
    (h : t.candidate.position = u.candidate.position) : t.number = u.number := by
  have hhome := (hinv.tenant t ht).2.2
  rw [h, (hinv.tenant u hu).2.2] at hhome
  simpa using hhome.symm

theorem position_nodup (hinv : Inv pool seen line scan) :
    (scan.active.map fun t => t.candidate.position).Nodup := by
  refine List.pairwise_map.mpr ((List.pairwise_map.mp hinv.tenant_nodup).imp_of_mem ?_)
  intro t u ht hu hne heq
  exact hne (hinv.number_eq_of_position ht hu heq)

/-- A free register: there are fewer tenants than registers. -/
theorem length_active_lt (hinv : Inv pool seen line scan) {number : Nat} (hlt : number < pool)
    (hfree : number ∉ scan.active.map Tenant.number) : scan.active.length < pool := by
  have hsub : number :: scan.active.map Tenant.number ⊆ List.range pool := by
    intro k hk
    rw [List.mem_range]
    rcases List.mem_cons.mp hk with rfl | hk
    · exact hlt
    · obtain ⟨t, ht, rfl⟩ := List.mem_map.mp hk
      exact (hinv.tenant t ht).2.1
  simpa using ((List.nodup_cons.mpr ⟨hfree, hinv.tenant_nodup⟩).subperm hsub).length_le

theorem expire (hinv : Inv pool seen line scan) {later : Nat} (h : line ≤ later) :
    Inv pool seen later (scan.expire later).value := by
  have hsub : (scan.expire later).value.active.Sublist scan.active := List.filter_sublist
  refine { hinv with started := ?_, tenant := ?_, tenant_nodup := ?_, holds := ?_ }
  · intro c hc
    exact Nat.le_trans (hinv.started c hc) h
  · intro t ht
    exact hinv.tenant t (hsub.subset ht)
  · exact (hsub.map _).nodup hinv.tenant_nodup
  · intro c hc number hhome
    obtain ⟨hlt, hactive | hended⟩ := hinv.holds c hc number hhome
    · refine ⟨hlt, ?_⟩
      by_cases hstop : later < c.interval.stop
      · exact .inl (List.mem_filter.mpr ⟨hactive, decide_eq_true hstop⟩)
      · exact .inr (by omega)
    · exact ⟨hlt, .inr (by omega)⟩

theorem home?_eq_none (hinv : Inv pool seen line scan)
    (hfresh : candidate.position ∉ seen.map Candidate.position) :
    scan.home? candidate.position = none := by
  rw [← Option.not_isSome_iff_eq_none]
  exact fun h => hfresh (hinv.known _ h)

theorem assign (hinv : Inv pool seen candidate.interval.start scan)
    (hfresh : candidate.position ∉ seen.map Candidate.position) {number : Nat}
    (hlt : number < pool) (hfree : number ∉ scan.active.map Tenant.number) :
    Inv pool (seen ++ [candidate]) candidate.interval.start
      (scan.assign candidate number).value := by
  have hne : ∀ c ∈ seen, c.position ≠ candidate.position :=
    fun c hc h => hfresh (h ▸ List.mem_map_of_mem hc)
  have hnone := hinv.home?_eq_none hfresh
  -- whoever held the register before has ended
  have hended : ∀ c ∈ seen, scan.home? c.position = some (.register number) →
      c.interval.stop ≤ candidate.interval.start := by
    intro c hc hhome
    rcases (hinv.holds c hc number hhome).2 with hactive | h
    · exact absurd (List.mem_map_of_mem hactive) hfree
    · exact h
  have hslot : ∀ position k, (scan.assign candidate number).value.home? position =
      some (.slot k) ↔ scan.home? position = some (.slot k) := by
    intro position k
    rw [home?_assign]
    split
    · rename_i h
      rw [h, hnone]
      simp
    · rfl
  constructor
  case started =>
    intro c hc
    rcases List.mem_append.mp hc with hc | hc
    · exact hinv.started c hc
    · rw [List.mem_singleton.mp hc]
  case placed =>
    intro c hc
    rw [home?_assign]
    split
    · rfl
    · rename_i h
      rcases List.mem_append.mp hc with hc | hc
      · exact hinv.placed c hc
      · exact absurd (congrArg _ (List.mem_singleton.mp hc)) h
  case known =>
    intro position h
    rw [home?_assign] at h
    split at h
    · rename_i heq
      simp [heq]
    · rw [List.map_append]
      exact List.mem_append_left _ (hinv.known position h)
  case tenant =>
    intro t ht
    rw [home?_assign]
    rcases List.mem_append.mp ht with ht | ht
    · obtain ⟨hseen, hpool, hhome⟩ := hinv.tenant t ht
      exact ⟨List.mem_append_left _ hseen, hpool, by rw [if_neg (hne _ hseen), hhome]⟩
    · rw [List.mem_singleton.mp ht]
      exact ⟨by simp, hlt, if_pos rfl⟩
  case tenant_nodup =>
    show ((scan.active ++ [(⟨candidate, number⟩ : Tenant)]).map Tenant.number).Nodup
    rw [List.map_append, List.nodup_append]
    exact ⟨hinv.tenant_nodup, by simp, by simpa using hfree⟩
  case holds =>
    intro c hc k hhome
    rw [home?_assign] at hhome
    rcases List.mem_append.mp hc with hc | hc
    · rw [if_neg (hne c hc)] at hhome
      obtain ⟨hk, h⟩ := hinv.holds c hc k hhome
      exact ⟨hk, h.imp_left fun h => List.mem_append_left _ h⟩
    · rw [List.mem_singleton.mp hc, if_pos rfl] at hhome
      cases hhome
      rw [List.mem_singleton.mp hc]
      exact ⟨hlt, .inl (List.mem_append_right _ (List.mem_singleton.mpr rfl))⟩
  case exclusive =>
    intro c hc d hd hcd k hhc hhd
    rw [home?_assign] at hhc hhd
    rcases List.mem_append.mp hc with hc | hc <;> rcases List.mem_append.mp hd with hd | hd
    · rw [if_neg (hne c hc)] at hhc
      rw [if_neg (hne d hd)] at hhd
      exact hinv.exclusive c hc d hd hcd k hhc hhd
    · rw [List.mem_singleton.mp hd] at hhd ⊢
      rw [if_neg (hne c hc)] at hhc
      cases (if_pos rfl).symm.trans hhd
      rw [Interval.overlaps_comm]
      exact Interval.overlaps_eq_false_of_stop_le (hended c hc hhc)
    · rw [List.mem_singleton.mp hc] at hhc ⊢
      rw [if_neg (hne d hd)] at hhd
      cases (if_pos rfl).symm.trans hhc
      exact Interval.overlaps_eq_false_of_stop_le (hended d hd hhd)
    · rw [List.mem_singleton.mp hc, List.mem_singleton.mp hd] at hcd
      exact absurd rfl hcd
  case slot_iff =>
    intro k
    simp only [hslot]
    exact hinv.slot_iff k
  case slot_inj =>
    intro p q k hp hq
    exact hinv.slot_inj p q k ((hslot p k).mp hp) ((hslot q k).mp hq)

/-- A fresh slot for a position that has none yet. -/
theorem slot_iff_of_update (hinv : Inv pool seen line scan) {next : Scan} {here : Nat}
    (hhome : ∀ position, next.home? position =
      if position = here then some (.slot scan.nextSlot) else scan.home? position)
    (hnext : next.nextSlot = scan.nextSlot + 1)
    (hhere : ∀ number, scan.home? here ≠ some (.slot number)) (number : Nat) :
    number < next.nextSlot ↔ ∃ position, next.home? position = some (.slot number) := by
  rw [hnext, Nat.lt_succ_iff_lt_or_eq, hinv.slot_iff]
  constructor
  · rintro (⟨position, h⟩ | rfl)
    · refine ⟨position, ?_⟩
      rw [hhome, if_neg, h]
      rintro rfl
      exact hhere number h
    · exact ⟨here, by rw [hhome, if_pos rfl]⟩
  · rintro ⟨position, h⟩
    rw [hhome] at h
    split at h
    · cases h
      exact .inr rfl
    · exact .inl ⟨position, h⟩

theorem slot_inj_of_update (hinv : Inv pool seen line scan) {next : Scan} {here : Nat}
    (hhome : ∀ position, next.home? position =
      if position = here then some (.slot scan.nextSlot) else scan.home? position)
    (p q number : Nat) (hp : next.home? p = some (.slot number))
    (hq : next.home? q = some (.slot number)) : p = q := by
  -- the number of the fresh slot is not in use
  have hfresh : ∀ position, scan.home? position ≠ some (.slot scan.nextSlot) :=
    fun position h => Nat.lt_irrefl _ ((hinv.slot_iff _).mpr ⟨position, h⟩)
  rw [hhome] at hp hq
  split at hp <;> split at hq
  · rename_i h h'
    rw [h, h']
  · cases hp
    exact absurd hq (hfresh q)
  · cases hq
    exact absurd hp (hfresh p)
  · exact hinv.slot_inj p q number hp hq

theorem spill (hinv : Inv pool seen candidate.interval.start scan)
    (hfresh : candidate.position ∉ seen.map Candidate.position) :
    Inv pool (seen ++ [candidate]) candidate.interval.start (scan.spill candidate).value := by
  have hne : ∀ c ∈ seen, c.position ≠ candidate.position :=
    fun c hc h => hfresh (h ▸ List.mem_map_of_mem hc)
  have hnone := hinv.home?_eq_none hfresh
  have hregister : ∀ c ∈ seen ++ [candidate], ∀ k, (scan.spill candidate).value.home? c.position =
      some (.register k) → c ∈ seen ∧ scan.home? c.position = some (.register k) := by
    intro c hc k h
    rw [home?_spill] at h
    split at h
    · cases h
    · rename_i hpos
      rcases List.mem_append.mp hc with hc | hc
      · exact ⟨hc, h⟩
      · exact absurd (congrArg _ (List.mem_singleton.mp hc)) hpos
  constructor
  case started =>
    intro c hc
    rcases List.mem_append.mp hc with hc | hc
    · exact hinv.started c hc
    · rw [List.mem_singleton.mp hc]
  case placed =>
    intro c hc
    rw [home?_spill]
    split
    · rfl
    · rename_i h
      rcases List.mem_append.mp hc with hc | hc
      · exact hinv.placed c hc
      · exact absurd (congrArg _ (List.mem_singleton.mp hc)) h
  case known =>
    intro position h
    rw [home?_spill] at h
    split at h
    · rename_i heq
      simp [heq]
    · rw [List.map_append]
      exact List.mem_append_left _ (hinv.known position h)
  case tenant =>
    intro t ht
    obtain ⟨hseen, hpool, hhome⟩ := hinv.tenant t ht
    exact ⟨List.mem_append_left _ hseen, hpool, by rw [home?_spill, if_neg (hne _ hseen), hhome]⟩
  case tenant_nodup => exact hinv.tenant_nodup
  case holds =>
    intro c hc k hhome
    obtain ⟨hseen, hold⟩ := hregister c hc k hhome
    exact hinv.holds c hseen k hold
  case exclusive =>
    intro c hc d hd hcd k hhc hhd
    obtain ⟨hc, hhc⟩ := hregister c hc k hhc
    obtain ⟨hd, hhd⟩ := hregister d hd k hhd
    exact hinv.exclusive c hc d hd hcd k hhc hhd
  case slot_iff =>
    exact hinv.slot_iff_of_update (home?_spill candidate scan) rfl (by simp [hnone])
  case slot_inj => exact hinv.slot_inj_of_update (home?_spill candidate scan)

theorem unseat (hinv : Inv pool seen line scan) {tenant : Tenant} {others : List Tenant}
    (hperm : scan.active.Perm (tenant :: others)) :
    Inv pool seen line (scan.unseat tenant others) := by
  have hmem : tenant ∈ scan.active := hperm.mem_iff.mpr List.mem_cons_self
  have hothers : ∀ t ∈ others, t ∈ scan.active :=
    fun t ht => hperm.mem_iff.mpr (List.mem_cons_of_mem _ ht)
  obtain ⟨hseen, _, hhome⟩ := hinv.tenant tenant hmem
  have hnodup := (hperm.map Tenant.number).nodup_iff.mp hinv.tenant_nodup
  rw [List.map_cons, List.nodup_cons] at hnodup
  have hne : ∀ t ∈ others, t.candidate.position ≠ tenant.candidate.position := by
    intro t ht h
    apply hnodup.1
    rw [← hinv.number_eq_of_position (hothers t ht) hmem h]
    exact List.mem_map_of_mem ht
  have hregister : ∀ c ∈ seen, ∀ k, (scan.unseat tenant others).home? c.position =
      some (.register k) → c.position ≠ tenant.candidate.position ∧
        scan.home? c.position = some (.register k) := by
    intro c hc k h
    rw [home?_unseat] at h
    split at h
    · cases h
    · rename_i hpos
      exact ⟨hpos, h⟩
  constructor
  case started => exact hinv.started
  case placed =>
    intro c hc
    rw [home?_unseat]
    split
    · rfl
    · exact hinv.placed c hc
  case known =>
    intro position h
    rw [home?_unseat] at h
    split at h
    · rename_i heq
      rw [heq]
      exact List.mem_map_of_mem hseen
    · exact hinv.known position h
  case tenant =>
    intro t ht
    obtain ⟨hs, hpool, hh⟩ := hinv.tenant t (hothers t ht)
    exact ⟨hs, hpool, by rw [home?_unseat, if_neg (hne t ht), hh]⟩
  case tenant_nodup => exact hnodup.2
  case holds =>
    intro c hc k h
    obtain ⟨hpos, hold⟩ := hregister c hc k h
    obtain ⟨hk, hactive | hended⟩ := hinv.holds c hc k hold
    · refine ⟨hk, .inl ?_⟩
      rcases List.mem_cons.mp (hperm.mem_iff.mp hactive) with rfl | hmem'
      · exact absurd rfl hpos
      · exact hmem'
    · exact ⟨hk, .inr hended⟩
  case exclusive =>
    intro c hc d hd hcd k hhc hhd
    exact hinv.exclusive c hc d hd hcd k (hregister c hc k hhc).2 (hregister d hd k hhd).2
  case slot_iff =>
    exact hinv.slot_iff_of_update (home?_unseat tenant others scan) rfl (by simp [hhome])
  case slot_inj => exact hinv.slot_inj_of_update (home?_unseat tenant others scan)

theorem evict (hinv : Inv pool seen candidate.interval.start scan)
    (hfresh : candidate.position ∉ seen.map Candidate.position) {tenant : Tenant}
    {others : List Tenant} (hperm : scan.active.Perm (tenant :: others)) :
    Inv pool (seen ++ [candidate]) candidate.interval.start
      (scan.evict tenant others candidate).value := by
  rw [evict_eq_assign_unseat]
  have hmem : tenant ∈ scan.active := hperm.mem_iff.mpr List.mem_cons_self
  have hnodup := (hperm.map Tenant.number).nodup_iff.mp hinv.tenant_nodup
  rw [List.map_cons, List.nodup_cons] at hnodup
  exact (hinv.unseat hperm).assign hfresh (hinv.tenant tenant hmem).2.1 hnodup.1

/-- **A visit keeps the invariant.** -/
theorem visit (hinv : Inv pool seen line scan) (hline : line ≤ candidate.interval.start)
    (hfresh : candidate.position ∉ seen.map Candidate.position) :
    Inv pool (seen ++ [candidate]) candidate.interval.start
      (scan.visit pool candidate).value := by
  have hkept := hinv.expire hline
  rcases visit_cases pool scan candidate with
    ⟨number, hlt, hfree, _, h⟩ | ⟨_, ⟨_, h⟩ | ⟨tenant, others, htake, _, h⟩⟩
  · rw [h]
    exact hkept.assign hfresh hlt hfree
  · rw [h]
    exact hkept.spill hfresh
  · rw [h]
    exact hkept.evict hfresh (Tenant.perm_of_takeLongest htake)

/-- Slots are used up one by one, at most one for each visited candidate. -/
theorem nextSlot_le (hinv : Inv pool seen line scan) : scan.nextSlot ≤ seen.length := by
  choose! position hposition using fun number => (hinv.slot_iff number).mp
  have hnodup : ((List.range scan.nextSlot).map position).Nodup := by
    refine List.Nodup.map_on ?_ List.nodup_range
    intro p hp q hq h
    have hp' := hposition p (List.mem_range.mp hp)
    rw [h, hposition q (List.mem_range.mp hq)] at hp'
    simpa using hp'.symm
  have hsub : (List.range scan.nextSlot).map position ⊆ seen.map Candidate.position := by
    intro p hp
    obtain ⟨number, hnumber, rfl⟩ := List.mem_map.mp hp
    exact hinv.known _ (by rw [hposition number (List.mem_range.mp hnumber)]; rfl)
  simpa using (hnodup.subperm hsub).length_le

end Inv

/-! ## A whole run -/

/-- **Induction over a run**: what holds at the start and is kept by each visit, given the
invariant, holds at the end together with the invariant. -/
theorem run_induction (pool : Nat) {motive : List Candidate → Scan → Prop}
    {candidates : List Candidate}
    (hsorted : candidates.Pairwise fun a b => a.interval.start ≤ b.interval.start)
    (hnodup : (candidates.map Candidate.position).Nodup) (hstart : motive [] {})
    (hvisit : ∀ seen line scan candidate rest, candidates = seen ++ candidate :: rest →
      Inv pool seen line scan → line ≤ candidate.interval.start → motive seen scan →
      motive (seen ++ [candidate]) (scan.visit pool candidate).value) :
    (∃ line, Inv pool candidates line (run pool {} candidates).value) ∧
      motive candidates (run pool {} candidates).value := by
  suffices ∀ (rest seen : List Candidate) (line : Nat) (scan : Scan), candidates = seen ++ rest →
      (∀ c ∈ rest, line ≤ c.interval.start) → Inv pool seen line scan → motive seen scan →
      (∃ line, Inv pool candidates line (run pool scan rest).value) ∧
        motive candidates (run pool scan rest).value from
    this candidates [] 0 {} rfl (fun _ _ => Nat.zero_le _) (Inv.empty pool) hstart
  intro rest
  induction rest with
  | nil =>
    intro seen line scan heq _ hinv hmotive
    rw [List.append_nil] at heq
    subst heq
    exact ⟨⟨line, hinv⟩, hmotive⟩
  | cons candidate rest ih =>
    intro seen line scan heq hline hinv hmotive
    have hle : line ≤ candidate.interval.start := hline candidate List.mem_cons_self
    have hfresh : candidate.position ∉ seen.map Candidate.position :=
      Candidate.position_notMem (heq ▸ hnodup)
    have hlater : ∀ c ∈ rest, candidate.interval.start ≤ c.interval.start := by
      rw [heq, List.pairwise_append, List.pairwise_cons] at hsorted
      exact hsorted.2.1.1
    refine ih (seen ++ [candidate]) candidate.interval.start _ (by simp [heq]) hlater
      (hinv.visit hle hfresh) (hvisit seen line scan candidate rest heq hinv hle hmotive)

theorem run_concat (pool : Nat) (scan : Scan) (seen : List Candidate) (candidate : Candidate) :
    (run pool scan (seen ++ [candidate])).value =
      ((run pool scan seen).value.visit pool candidate).value := by
  induction seen generalizing scan with
  | nil => rfl
  | cons first later ih => exact ih (scan.visit pool first).value

/-- **The invariant in front of a visit.** -/
theorem exists_inv_before (pool : Nat) {candidates seen rest : List Candidate}
    {candidate : Candidate}
    (hsorted : candidates.Pairwise fun a b => a.interval.start ≤ b.interval.start)
    (hnodup : (candidates.map Candidate.position).Nodup)
    (hall : candidates = seen ++ candidate :: rest) :
    ∃ line ≤ candidate.interval.start, Inv pool seen line (run pool {} seen).value := by
  have hsub : (seen ++ [candidate]).Sublist candidates :=
    List.IsPrefix.sublist ⟨rest, by simp [hall]⟩
  -- the induction over the visits up to this one has met the invariant in front of each
  obtain ⟨_, _, hbefore⟩ := run_induction pool
    (motive := fun visited scan => scan = (run pool {} visited).value ∧
      ∀ earlier last, visited = earlier ++ [last] →
        ∃ line ≤ last.interval.start, Inv pool earlier line (run pool {} earlier).value)
    (hsorted.sublist hsub) (hnodup.sublist (hsub.map _)) ⟨rfl, fun _ _ h => by simp at h⟩ (by
      rintro visited line scan last _ _ hinv hline ⟨rfl, _⟩
      refine ⟨(run_concat pool {} visited last).symm, fun earlier last' heq => ?_⟩
      obtain ⟨rfl, rfl⟩ := List.append_singleton_inj.mp heq
      exact ⟨line, hline, hinv⟩)
  exact hbefore seen candidate rfl

/-- The scan of some intervals, when all are visited. -/
def ofIntervals (pool : Nat) (intervals : List Interval) : Scan :=
  (run pool {} (Candidate.ofIntervals intervals)).value

/-- **The invariant at the end of an allocation.** -/
theorem exists_inv (pool : Nat) (intervals : List Interval) :
    ∃ line, Inv pool (Candidate.ofIntervals intervals) line (ofIntervals pool intervals) :=
  (run_induction pool (motive := fun _ _ => True) (Candidate.ofIntervals_pairwise intervals)
    (Candidate.ofIntervals_nodup intervals) trivial fun _ _ _ _ _ _ _ _ _ => trivial).1

end Scan

/-! ## The allocated intervals -/

theorem getElem?_allocate (pool : Nat) (intervals : List Interval) (position : Nat) :
    (allocate pool intervals).value[position]? =
      intervals[position]?.map fun interval =>
        (Scan.ofIntervals pool intervals).settle interval position := by
  show (intervals.zipIdx.map _)[position]? = _
  rw [List.getElem?_map, List.getElem?_zipIdx, Option.map_map]
  simp [Function.comp_def, Scan.ofIntervals]

@[simp] theorem length_allocate (pool : Nat) (intervals : List Interval) :
    (allocate pool intervals).value.length = intervals.length := by
  show (intervals.zipIdx.map _).length = _
  simp

end TurtleAlloc
