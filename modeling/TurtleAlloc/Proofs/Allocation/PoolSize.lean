import Mathlib
import TurtleAlloc.Proofs.Allocation.Sharing

/-!
# Allocation from a smaller pool

Two scans of the same intervals, with pools of different sizes, part at the first eviction.  They
stay close: who is a tenant of the smaller pool is a tenant of the larger one.

* `Tenant.takeLongest_eq_some_iff` — which tenant is taken, ties included.
* `Tenant.takeLongest_of_sublist` — taking from fewer tenants: the same one, or one that stays.
* `Scan.Nested` — the relation between the two scans.  Each pair of operations keeps it, hence so do
  a visit (`Scan.Nested.visit`) and a run (`Scan.nested_ofIntervals`).
* `allocate_spills_in_smaller` — what is spilled from the larger pool is spilled from the smaller.
-/

namespace TurtleAlloc

/-! ## Taking from fewer tenants -/

namespace Tenant

variable {tenants fewer others : List Tenant} {longest : Tenant}

/-- The tenant that is taken lasts as long as all in front of it, and longer than those behind. -/
theorem takeLongest_eq_some_iff : takeLongest tenants = some (longest, others) ↔
    ∃ front back, tenants = front ++ longest :: back ∧ others = front ++ back ∧
      (∀ t ∈ front, t.stop ≤ longest.stop) ∧ ∀ t ∈ back, t.stop < longest.stop := by
  constructor
  · intro h
    induction tenants generalizing longest others with
    | nil => cases h
    | cons tenant later ih =>
      rw [takeLongest] at h
      split at h
      · rename_i hnone
        cases h
        exact ⟨[], [], by simp [takeLongest_eq_none_iff.mp hnone], rfl, by simp, by simp⟩
      · rename_i latest rest htake
        split at h
        · rename_i hle
          cases h
          obtain ⟨front, back, rfl, rfl, hfront, hback⟩ := ih htake
          refine ⟨tenant :: front, back, rfl, rfl, fun t ht => ?_, hback⟩
          rcases List.mem_cons.mp ht with rfl | ht
          · exact hle
          · exact hfront t ht
        · rename_i hlt
          cases h
          refine ⟨[], later, rfl, rfl, by simp, fun t ht => ?_⟩
          exact Nat.lt_of_le_of_lt (stop_le_of_takeLongest htake ht) (Nat.lt_of_not_le hlt)
  · rintro ⟨front, back, rfl, rfl, hfront, hback⟩
    induction front with
    | nil =>
      rw [List.nil_append, List.nil_append, takeLongest]
      split
      · rename_i hnone
        rw [takeLongest_eq_none_iff.mp hnone]
      · rename_i latest rest htake
        have hlt := hback latest (mem_of_takeLongest htake)
        rw [if_neg (Nat.not_le_of_lt hlt)]
    | cons tenant front ih =>
      rw [List.cons_append, takeLongest, ih fun t ht => hfront t (List.mem_cons_of_mem _ ht)]
      simp [hfront tenant List.mem_cons_self]

/-- Tenants are compared by their candidates: they may hold other registers. -/
theorem exists_stop_eq_of_sublist {tenant : Tenant}
    (hsub : (fewer.map candidate).Sublist (tenants.map candidate)) (hmem : tenant ∈ fewer) :
    ∃ same ∈ tenants, same.stop = tenant.stop := by
  obtain ⟨same, hsame, heq⟩ := List.mem_map.mp (hsub.subset (List.mem_map_of_mem hmem))
  exact ⟨same, hsame, congrArg (·.interval.stop) heq⟩

/-- If the longest tenant is also among fewer ones, it is taken from them; if not, they are all
among the others. -/
theorem takeLongest_of_sublist
    (hsub : (fewer.map candidate).Sublist (tenants.map candidate))
    (htake : takeLongest tenants = some (longest, others)) :
    (fewer.map candidate).Sublist (others.map candidate) ∨
      ∃ same rest, takeLongest fewer = some (same, rest) ∧ same.candidate = longest.candidate ∧
        (rest.map candidate).Sublist (others.map candidate) := by
  obtain ⟨front, back, rfl, rfl, hfront, hback⟩ := takeLongest_eq_some_iff.mp htake
  rw [List.map_append, List.map_cons, List.sublist_append_iff] at hsub
  obtain ⟨_, _, heq, hfore, haft⟩ := hsub
  obtain ⟨fore, aft, rfl, rfl, rfl⟩ := List.map_eq_append_iff.mp heq
  rcases List.sublist_cons_iff.mp haft with haft | ⟨_, heq, haft⟩
  · left
    rw [List.map_append, List.map_append]
    exact hfore.append haft
  · right
    obtain ⟨same, behind, rfl, hsame, rfl⟩ := List.map_eq_cons_iff.mp heq
    have hsame_stop : same.stop = longest.stop := congrArg (·.interval.stop) hsame
    refine ⟨same, fore ++ behind, takeLongest_eq_some_iff.mpr
      ⟨fore, behind, rfl, rfl, fun t ht => ?_, fun t ht => ?_⟩, hsame, ?_⟩
    · obtain ⟨u, hu, heq⟩ := exists_stop_eq_of_sublist hfore ht
      rw [hsame_stop, ← heq]
      exact hfront u hu
    · obtain ⟨u, hu, heq⟩ := exists_stop_eq_of_sublist haft ht
      rw [hsame_stop, ← heq]
      exact hback u hu
    · rw [List.map_append, List.map_append]
      exact hfore.append haft

end Tenant

namespace Scan

/-! ## Who holds a register -/

/-- The interval at a position has been given a register and has not lost it. -/
def Holds (scan : Scan) (position : Nat) : Prop :=
  ∃ number, scan.home? position = some (.register number)

section Holds

variable {scan : Scan} {candidate : Candidate} {position number : Nat}

theorem holds_assign : (scan.assign candidate number).value.Holds position ↔
    position = candidate.position ∨ scan.Holds position := by
  unfold Holds
  rw [home?_assign]
  by_cases h : position = candidate.position <;> simp [h]

theorem holds_spill : (scan.spill candidate).value.Holds position ↔
    position ≠ candidate.position ∧ scan.Holds position := by
  unfold Holds
  rw [home?_spill]
  by_cases h : position = candidate.position <;> simp [h]

theorem holds_unseat {tenant : Tenant} {others : List Tenant} :
    (scan.unseat tenant others).Holds position ↔
      position ≠ tenant.candidate.position ∧ scan.Holds position := by
  unfold Holds
  rw [home?_unseat]
  by_cases h : position = tenant.candidate.position <;> simp [h]

end Holds

/-! ## The two scans -/

/-- The scan with the smaller pool beside the one with the larger, after the same visits. -/
structure Nested (small large : Nat) (narrow wide : Scan) : Prop where
  /-- The tenants of the smaller pool are among those of the larger, in the same order. -/
  sublist : (narrow.active.map Tenant.candidate).Sublist (wide.active.map Tenant.candidate)
  /-- There are no more further tenants than further registers. -/
  slack : wide.active.length + small ≤ narrow.active.length + large
  held : ∀ position, narrow.Holds position → wide.Holds position

namespace Nested

variable {small large : Nat} {narrow wide : Scan} {candidate : Candidate}

theorem expire (h : Nested small large narrow wide) (line : Nat) :
    Nested small large (narrow.expire line).value (wide.expire line).value := by
  have hmap : ∀ scan : Scan, (scan.expire line).value.active.map Tenant.candidate =
      (scan.active.map Tenant.candidate).filter fun c => line < c.interval.stop := by
    intro scan
    rw [List.filter_map]
    rfl
  refine ⟨?_, ?_, h.held⟩
  · rw [hmap, hmap]
    exact h.sublist.filter _
  · -- a further tenant may end, and none arises
    have hcount := h.sublist.le_countP fun c => line < c.interval.stop
    rw [List.countP_eq_length_filter, List.countP_eq_length_filter, ← hmap, ← hmap] at hcount
    simp only [List.length_map] at hcount
    have hlength := h.sublist.length_le
    simp only [List.length_map] at hlength
    have := h.slack
    omega

theorem assign (h : Nested small large narrow wide) (candidate : Candidate) (i j : Nat) :
    Nested small large (narrow.assign candidate i).value (wide.assign candidate j).value := by
  refine ⟨?_, ?_, fun position => ?_⟩
  · simp only [Scan.assign, List.map_append]
    exact h.sublist.append (.refl _)
  · simp only [Scan.assign, List.length_append, List.length_singleton]
    have := h.slack
    omega
  · rw [holds_assign, holds_assign]
    exact Or.imp_right (h.held position)

theorem spill (h : Nested small large narrow wide) (candidate : Candidate) :
    Nested small large (narrow.spill candidate).value (wide.spill candidate).value := by
  refine ⟨h.sublist, h.slack, fun position => ?_⟩
  rw [holds_spill, holds_spill]
  exact And.imp_right (h.held position)

theorem spill_assign (h : Nested small large narrow wide) (candidate : Candidate) (number : Nat)
    (hroom : wide.active.length + 1 + small ≤ narrow.active.length + large) :
    Nested small large (narrow.spill candidate).value (wide.assign candidate number).value := by
  refine ⟨?_, ?_, fun position => ?_⟩
  · simp only [Scan.assign, List.map_append]
    exact h.sublist.trans (List.sublist_append_left _ _)
  · simpa only [Scan.assign, Scan.spill, List.length_append, List.length_singleton] using hroom
  · rw [holds_spill, holds_assign]
    exact fun hp => .inr (h.held position hp.2)

theorem unseat (h : Nested small large narrow wide) {tenant same : Tenant}
    {others rest : List Tenant} (hsame : same.candidate = tenant.candidate)
    (hothers : wide.active.Perm (tenant :: others)) (hrest : narrow.active.Perm (same :: rest))
    (hsub : (rest.map Tenant.candidate).Sublist (others.map Tenant.candidate)) :
    Nested small large (narrow.unseat same rest) (wide.unseat tenant others) := by
  refine ⟨hsub, ?_, fun position => ?_⟩
  · have hwide := hothers.length_eq
    have hnarrow := hrest.length_eq
    rw [List.length_cons] at hwide hnarrow
    have := h.slack
    show others.length + small ≤ rest.length + large
    omega
  · rw [holds_unseat, holds_unseat, hsame]
    exact And.imp_right (h.held position)

theorem unseat_narrow (h : Nested small large narrow wide) {tenant : Tenant}
    {rest : List Tenant} (htake : Tenant.takeLongest narrow.active = some (tenant, rest))
    (hroom : wide.active.length + small < narrow.active.length + large) :
    Nested small large (narrow.unseat tenant rest) wide := by
  obtain ⟨front, back, heq, rfl, _, _⟩ := Tenant.takeLongest_eq_some_iff.mp htake
  have hsub : (front ++ back).Sublist narrow.active := by
    rw [heq]
    exact (List.Sublist.refl front).append (List.sublist_cons_self tenant back)
  refine ⟨(hsub.map _).trans h.sublist, ?_, fun position hp => ?_⟩
  · have hlength := congrArg List.length heq
    simp only [List.length_append, List.length_cons] at hlength
    show wide.active.length + small ≤ (front ++ back).length + large
    rw [List.length_append]
    omega
  · exact h.held position (holds_unseat.mp hp).2

theorem unseat_wide (h : Nested small large narrow wide) {tenant : Tenant}
    {others : List Tenant} (hothers : wide.active.Perm (tenant :: others))
    (hsub : (narrow.active.map Tenant.candidate).Sublist (others.map Tenant.candidate))
    (hlost : ¬ narrow.Holds tenant.candidate.position) :
    Nested small large narrow (wide.unseat tenant others) := by
  refine ⟨hsub, ?_, fun position hp => ?_⟩
  · have hlength := hothers.length_eq
    rw [List.length_cons] at hlength
    have := h.slack
    show others.length + small ≤ narrow.active.length + large
    omega
  · refine holds_unseat.mpr ⟨fun heq => hlost (heq ▸ hp), h.held position hp⟩

section Visit

variable {seen : List Candidate} {line : Nat}

theorem not_holds_of_notMem {pool : Nat} {scan : Scan} (hinv : Inv pool seen line scan)
    {c : Candidate} (hseen : c ∈ seen) (hstop : line < c.interval.stop)
    (hmem : c ∉ scan.active.map Tenant.candidate) : ¬ scan.Holds c.position := by
  rintro ⟨number, hhome⟩
  rcases (hinv.holds c hseen number hhome).2 with hactive | hended
  · exact hmem (List.mem_map_of_mem (f := Tenant.candidate) hactive)
  · omega

theorem candidate_notMem_others {pool : Nat} {scan : Scan} (hinv : Inv pool seen line scan)
    {tenant : Tenant} {others : List Tenant} (hperm : scan.active.Perm (tenant :: others)) :
    tenant.candidate ∉ others.map Tenant.candidate := by
  have hnodup := (hperm.map fun t => t.candidate.position).nodup_iff.mp hinv.position_nodup
  intro hmem
  obtain ⟨t, ht, heq⟩ := List.mem_map.mp hmem
  refine (List.nodup_cons.mp hnodup).1 (List.mem_map.mpr ⟨t, ht, ?_⟩)
  rw [heq]

/-- The tenant that the larger pool evicts leaves: it is also the one to leave the smaller pool, or
it had to leave it before. -/
theorem unseat_longest (h : Nested small large narrow wide) (hnarrow : Inv small seen line narrow)
    (hwide : Inv large seen line wide) (hlasts : ∀ t ∈ wide.active, line < t.stop)
    {tenant : Tenant} {others : List Tenant}
    (htake : Tenant.takeLongest wide.active = some (tenant, others)) :
    (∃ same rest, Tenant.takeLongest narrow.active = some (same, rest) ∧ same.stop = tenant.stop ∧
      Nested small large (narrow.unseat same rest) (wide.unseat tenant others)) ∨
    Nested small large narrow (wide.unseat tenant others) := by
  have hperm := Tenant.perm_of_takeLongest htake
  rcases Tenant.takeLongest_of_sublist h.sublist htake with hsub | ⟨same, rest, hsame, heq, hsub⟩
  · right
    have hmem := Tenant.mem_of_takeLongest htake
    have hnotMem : tenant.candidate ∉ narrow.active.map Tenant.candidate :=
      fun hin => candidate_notMem_others hwide hperm (hsub.subset hin)
    exact h.unseat_wide hperm hsub
      (not_holds_of_notMem hnarrow (hwide.tenant tenant hmem).1 (hlasts tenant hmem) hnotMem)
  · left
    exact ⟨same, rest, hsame, congrArg (·.interval.stop) heq,
      h.unseat heq hperm (Tenant.perm_of_takeLongest hsame) hsub⟩

theorem evict (h : Nested small large narrow wide) (hnarrow : Inv small seen line narrow)
    (hwide : Inv large seen line wide) (hlasts : ∀ t ∈ wide.active, line < t.stop)
    {tenant : Tenant} {others : List Tenant}
    (htake : Tenant.takeLongest wide.active = some (tenant, others))
    (hstop : candidate.interval.stop < tenant.stop) :
    ((∀ t ∈ narrow.active, t.stop ≤ candidate.interval.stop) →
      Nested small large (narrow.spill candidate).value
        (wide.evict tenant others candidate).value) ∧
    ∀ evicted rest, Tenant.takeLongest narrow.active = some (evicted, rest) →
      Nested small large (narrow.evict evicted rest candidate).value
        (wide.evict tenant others candidate).value := by
  have hlength : wide.active.length = others.length + 1 :=
    (Tenant.perm_of_takeLongest htake).length_eq
  have hslack := h.slack
  have hroom : (wide.unseat tenant others).active.length + 1 + small ≤
      narrow.active.length + large := by
    show others.length + 1 + small ≤ _
    omega
  simp only [evict_eq_assign_unseat]
  rcases h.unseat_longest hnarrow hwide hlasts htake with ⟨same, rest, hsame, heq, hnext⟩ | hnext
  · constructor
    · intro hall
      have := hall same (Tenant.mem_of_takeLongest hsame)
      omega
    · intro evicted rest' htake'
      cases hsame.symm.trans htake'
      exact hnext.assign candidate _ _
  · constructor
    · intro _
      exact hnext.spill_assign candidate _ hroom
    · intro evicted rest htake'
      exact (hnext.unseat_narrow htake' (by omega)).assign candidate _ _

/-- **A visit keeps the two scans together.** -/
theorem visit {line' : Nat} (h : Nested small large narrow wide)
    (hnarrow : Inv small seen line narrow) (hline : line ≤ candidate.interval.start)
    (hwide : Inv large seen line' wide) (hline' : line' ≤ candidate.interval.start) :
    Nested small large (narrow.visit small candidate).value
      (wide.visit large candidate).value := by
  have hkept := h.expire candidate.interval.start
  have hinv := hnarrow.expire hline
  have hinv' := hwide.expire hline'
  have hslack := hkept.slack
  rcases visit_cases large wide candidate with ⟨j, hj, hjfree, _, hvisit'⟩ | ⟨hheld', hfull'⟩
  · -- the larger pool has a free register; the smaller one need not have one
    have hfree := hinv'.length_active_lt hj hjfree
    rw [hvisit']
    rcases visit_cases small narrow candidate with
      ⟨i, _, _, _, hvisit⟩ | ⟨hheld, ⟨_, hvisit⟩ | ⟨tenant, rest, htake, _, hvisit⟩⟩
    · rw [hvisit]
      exact hkept.assign candidate i j
    · have hfull := le_length_active hheld
      rw [hvisit]
      exact hkept.spill_assign candidate j (by omega)
    · have hfull := le_length_active hheld
      rw [hvisit, evict_eq_assign_unseat]
      exact (hkept.unseat_narrow htake (by omega)).assign candidate _ j
  · -- the larger pool is full, and by the slack the smaller one is full too
    have hlasts : ∀ t ∈ (wide.expire candidate.interval.start).value.active,
        candidate.interval.start < t.stop :=
      fun t ht => of_decide_eq_true (List.mem_filter.mp ht).2
    rcases visit_cases small narrow candidate with ⟨i, hi, hifree, _, _⟩ | ⟨_, hfull⟩
    · have hfree := hinv.length_active_lt hi hifree
      have hcount := le_length_active hheld'
      omega
    · rcases hfull' with ⟨hall', hvisit'⟩ | ⟨tenant', others', htake', hlt', hvisit'⟩ <;>
        rcases hfull with ⟨hall, hvisit⟩ | ⟨tenant, others, htake, hlt, hvisit⟩ <;>
        rw [hvisit, hvisit']
      · exact hkept.spill candidate
      · -- whoever lasts longer than the candidate is a tenant of the larger pool as well
        obtain ⟨same, hsame, hstop⟩ := Tenant.exists_stop_eq_of_sublist hkept.sublist
          (Tenant.mem_of_takeLongest htake)
        have := hall' same hsame
        omega
      · exact (hkept.evict hinv hinv' hlasts htake' hlt').1 hall
      · exact (hkept.evict hinv hinv' hlasts htake' hlt').2 tenant others htake

end Visit

end Nested

/-- **A whole run keeps the two scans together.** -/
theorem nested_ofIntervals {small large : Nat} (h : small ≤ large) (intervals : List Interval) :
    Nested small large (ofIntervals small intervals) (ofIntervals large intervals) := by
  have hsorted := Candidate.ofIntervals_pairwise intervals
  have hnodup := Candidate.ofIntervals_nodup intervals
  have hstart : Nested small large {} {} :=
    ⟨.refl _, Nat.add_le_add_left h 0, fun _ hp => hp⟩
  refine (run_induction large
    (motive := fun seen wide => Nested small large (run small {} seen).value wide)
    hsorted hnodup hstart ?_).2
  intro seen line wide candidate rest hall hwide hline hnested
  obtain ⟨line', hline', hnarrow⟩ := exists_inv_before small hsorted hnodup hall
  rw [run_concat]
  exact hnested.visit hnarrow hline' hwide hline

end Scan

/-! ## The two allocations -/

variable {pool : Nat} {intervals : List Interval} {position : Nat}

theorem physical_allocate_eq_none_iff :
    (allocate pool intervals).value[position]?.map Interval.physical = some none ↔
      intervals[position]?.map Interval.physical = some none ∧
        ¬ (Scan.ofIntervals pool intervals).Holds position := by
  cases hget : intervals[position]? with
  | none => simp [getElem?_allocate, hget]
  | some interval =>
    by_cases hwaiting : interval.physical = none
    · obtain ⟨home, hhome, hresult⟩ := getElem?_allocate_of_waiting pool hget hwaiting
      rw [hresult]
      cases home <;> simp [Scan.Holds, hhome, Interval.keepIn, hwaiting]
    · rw [getElem?_allocate_of_placed hget hwaiting]
      simp [hwaiting]

/-- **A smaller pool spills no fewer intervals.**  Every interval that is left without a register by
the larger pool is left without one by the smaller pool as well. -/
theorem allocate_spills_in_smaller {small large : Nat} (h : small ≤ large)
    (intervals : List Interval) (position : Nat)
    (hspilled : (allocate large intervals).value[position]?.map Interval.physical = some none) :
    (allocate small intervals).value[position]?.map Interval.physical = some none := by
  rw [physical_allocate_eq_none_iff] at hspilled ⊢
  obtain ⟨hwaiting, hlost⟩ := hspilled
  exact ⟨hwaiting, fun hholds => hlost ((Scan.nested_ofIntervals h intervals).held _ hholds)⟩

/-- With two registers `z` replaces `x` and then, of two tenants that last equally long, the
inverted `w` replaces `z`.  With one register `z` is spilled at once, and `y` is spilled as well. -/
theorem allocate_spills_in_smaller_tie :
    let intervals : List Interval := [⟨"x", 0, 9, none, none⟩, ⟨"y", 1, 6, none, none⟩,
      ⟨"z", 2, 6, none, none⟩, ⟨"w", 5, 2, none, none⟩]
    (allocate 2 intervals).value[2]?.map Interval.physical = some none ∧
      (allocate 2 intervals).value[1]?.map Interval.physical = some (some "r1") ∧
      (allocate 1 intervals).value[2]?.map Interval.physical = some none := by
  intro intervals
  have hspilled : (allocate 2 intervals).value[2]?.map Interval.physical = some none := by
    decide +kernel
  exact ⟨hspilled, by decide +kernel,
    allocate_spills_in_smaller (by decide : 1 ≤ 2) intervals 2 hspilled⟩

end TurtleAlloc
