import Mathlib
import TurtleAlloc.Proofs.Allocation.Image
import TurtleAlloc.Proofs.Allocation.Sharing

/-!
# Allocation does not depend on the order of the intervals

A scan visits the waiting intervals in the order of their starts.  Where they stand in the list
matters only among those of equal starts, and intervals that came with a register do not matter at
all.

* `Candidate.eq_of_precedes` — by start and then by position, candidates have one order only.
* `Rearranges` — the intervals of a list in another order, some that have a register being left out.
* `Rearranges.ofIntervals_eq`, `Rearranges.home?_eq` — they are visited in the same order, and so
  they get the same places.
* `allocate_order_independent` — the two cases: permuted intervals, and deleted ones.
-/

namespace TurtleAlloc

/-! ## The order of the visits is determined -/

namespace Candidate

theorem nodup_of_precedes {candidates : List Candidate} (h : candidates.Pairwise Precedes) :
    candidates.Nodup := by
  refine h.imp fun hab heq => ?_
  subst heq
  unfold Precedes at hab
  omega

/-- Two lists of the same candidates in that order are the same. -/
theorem eq_of_precedes {as bs : List Candidate} (ha : as.Pairwise Precedes)
    (hb : bs.Pairwise Precedes) (hmem : ∀ c, c ∈ as ↔ c ∈ bs) : as = bs := by
  have hperm : as.Perm bs :=
    (List.perm_ext_iff_of_nodup (nodup_of_precedes ha) (nodup_of_precedes hb)).mpr hmem
  refine hperm.eq_of_pairwise (fun a b _ _ (hab : a.Precedes b) (hba : b.Precedes a) => ?_) ha hb
  unfold Precedes at hab hba
  omega

/-- The candidate at another position. -/
def move (f : Nat → Nat) (candidate : Candidate) : Candidate :=
  { candidate with position := f candidate.position }

theorem disguise_move (f : Nat → Nat) : Disguise (move f) f :=
  ⟨fun _ => rfl, fun _ => rfl, fun _ => rfl⟩

end Candidate

/-! ## Rearranged intervals -/

/-- The intervals `after` are those of `before` in another order, possibly without some that have a
register.  Waiting intervals of equal starts keep their order. -/
structure Rearranges (origin : Nat → Nat) (before after : List Interval) : Prop where
  get : ∀ i < after.length, after[i]? = before[origin i]?
  onto : ∀ (p : Nat) (interval : Interval), before[p]? = some interval →
    interval.physical = none → ∃ i < after.length, origin i = p
  stable : ∀ (i j : Nat) (a b : Interval), i < j → after[i]? = some a → after[j]? = some b →
    a.physical = none → b.physical = none → a.start = b.start → origin i < origin j

namespace Rearranges

variable {origin : Nat → Nat} {before after : List Interval} (h : Rearranges origin before after)

include h

theorem getElem?_origin {i : Nat} {interval : Interval} (hget : after[i]? = some interval) :
    before[origin i]? = some interval := by
  rw [← h.get i (List.getElem?_eq_some_iff.mp hget).1, hget]

theorem inj {i j : Nat} {a b : Interval} (hi : after[i]? = some a) (hj : after[j]? = some b)
    (ha : a.physical = none) (hb : b.physical = none) (heq : origin i = origin j) : i = j := by
  have hab : a = b := by
    have hget := h.getElem?_origin hi
    rw [heq, h.getElem?_origin hj] at hget
    exact (Option.some.inj hget).symm
  rcases Nat.lt_trichotomy i j with hlt | rfl | hlt
  · have := h.stable i j a b hlt hi hj ha hb (congrArg _ hab)
    omega
  · rfl
  · have := h.stable j i b a hlt hj hi hb ha (congrArg _ hab.symm)
    omega

/-- **The same intervals are visited in the same order.** -/
theorem ofIntervals_eq : Candidate.ofIntervals before =
    (Candidate.ofIntervals after).map (Candidate.move origin) := by
  refine Candidate.eq_of_precedes (Candidate.ofIntervals_precedes before) ?_ fun c => ?_
  · refine List.pairwise_map.mpr ((Candidate.ofIntervals_precedes after).imp_of_mem ?_)
    intro a b ha hb hab
    obtain ⟨hgeta, hnonea⟩ := Candidate.mem_ofIntervals.mp ha
    obtain ⟨hgetb, hnoneb⟩ := Candidate.mem_ofIntervals.mp hb
    rcases hab with hlt | ⟨hstart, hlt⟩
    · exact .inl hlt
    · exact .inr ⟨hstart, h.stable _ _ _ _ hlt hgeta hgetb hnonea hnoneb hstart⟩
  · rw [Candidate.mem_ofIntervals, List.mem_map]
    constructor
    · rintro ⟨hget, hnone⟩
      obtain ⟨i, hi, heq⟩ := h.onto c.position c.interval hget hnone
      refine ⟨⟨i, c.interval⟩, Candidate.mem_ofIntervals.mpr ⟨?_, hnone⟩, ?_⟩
      · rw [h.get i hi, heq, hget]
      · simp only [Candidate.move, heq]
    · rintro ⟨d, hd, rfl⟩
      obtain ⟨hget, hnone⟩ := Candidate.mem_ofIntervals.mp hd
      exact ⟨h.getElem?_origin hget, hnone⟩

/-- **They get the same places.** -/
theorem home?_eq (pool : Nat) {i : Nat} {interval : Interval} (hget : after[i]? = some interval)
    (hnone : interval.physical = none) :
    (Scan.ofIntervals pool before).home? (origin i) =
      (Scan.ofIntervals pool after).home? i := by
  have hscan : Scan.ofIntervals pool before =
      (Scan.ofIntervals pool after).image (Candidate.move origin) origin := by
    unfold Scan.ofIntervals
    rw [h.ofIntervals_eq]
    exact Scan.run_image (Candidate.disguise_move origin) pool {} _
  rw [hscan]
  refine Scan.home?_image _ fun j hsome heq => ?_
  obtain ⟨home, hhome⟩ := Option.isSome_iff_exists.mp hsome
  obtain ⟨other, hother, hwaiting, _⟩ := exists_waiting_of_home? hhome
  exact h.inj hother hget hwaiting hnone heq

theorem getElem?_allocate_eq (pool : Nat) {i : Nat} (hi : i < after.length) :
    (allocate pool after).value[i]? = (allocate pool before).value[origin i]? := by
  have hget : after[i]? = some after[i] := List.getElem?_eq_getElem hi
  have horigin := h.getElem?_origin hget
  by_cases hnone : after[i].physical = none
  · rw [getElem?_allocate, getElem?_allocate, hget, horigin, Option.map_some, Option.map_some,
      Scan.settle, Scan.settle, h.home?_eq pool hget hnone]
  · rw [getElem?_allocate_of_placed hget hnone, getElem?_allocate_of_placed horigin hnone]

end Rearranges

/-! ## Permuted intervals -/

variable {intervals : List Interval}

theorem rearranges_of_equiv {permuted : List Interval}
    (σ : Fin permuted.length ≃ Fin intervals.length) (hget : ∀ i, permuted[i] = intervals[σ i])
    (hstable : ∀ i j, i < j → permuted[i].physical = none → permuted[j].physical = none →
      permuted[i].start = permuted[j].start → σ i < σ j) :
    Rearranges (fun i => if hi : i < permuted.length then σ ⟨i, hi⟩ else 0) intervals permuted := by
  constructor
  case get =>
    intro i hi
    rw [dif_pos hi, List.getElem?_eq_getElem hi, List.getElem?_eq_getElem (σ ⟨i, hi⟩).isLt]
    exact congrArg some (hget ⟨i, hi⟩)
  case onto =>
    intro p interval hp _
    have hlt := (List.getElem?_eq_some_iff.mp hp).1
    refine ⟨σ.symm ⟨p, hlt⟩, (σ.symm ⟨p, hlt⟩).isLt, ?_⟩
    rw [dif_pos (σ.symm ⟨p, hlt⟩).isLt]
    simp
  case stable =>
    intro i j a b hij hi hj ha hb hstart
    obtain ⟨hi', rfl⟩ := List.getElem?_eq_some_iff.mp hi
    obtain ⟨hj', rfl⟩ := List.getElem?_eq_some_iff.mp hj
    rw [dif_pos hi', dif_pos hj']
    exact hstable ⟨i, hi'⟩ ⟨j, hj'⟩ hij ha hb hstart

/-! ## Deleted intervals -/

/-- A list without the entries at some positions. -/
def without {α : Type} (deleted : Finset Nat) (list : List α) : List α :=
  (list.zipIdx.filter fun entry => entry.2 ∉ deleted).map Prod.fst

/-- The positions that remain. -/
def remaining (deleted : Finset Nat) (length : Nat) : List Nat :=
  (List.range length).filter fun position => position ∉ deleted

theorem remaining_length_eq {α : Type} (deleted : Finset Nat) (list : List α) :
    remaining deleted list.length =
      (list.zipIdx.filter fun entry => entry.2 ∉ deleted).map Prod.snd := by
  rw [remaining, List.range_eq_range', ← List.zipIdx_map_snd 0 list, List.filter_map]
  rfl

theorem length_without {α : Type} (deleted : Finset Nat) (list : List α) :
    (without deleted list).length = (remaining deleted list.length).length := by
  rw [remaining_length_eq, without, List.length_map, List.length_map]

theorem getElem?_without {α : Type} (deleted : Finset Nat) (list : List α) (i : Nat) :
    (without deleted list)[i]? =
      (remaining deleted list.length)[i]?.bind fun position => list[position]? := by
  rw [remaining_length_eq, without, List.getElem?_map, List.getElem?_map]
  cases hentry : (list.zipIdx.filter fun entry => entry.2 ∉ deleted)[i]? with
  | none => rfl
  | some entry =>
    have hmem := (List.mem_filter.mp (List.mem_of_getElem? hentry)).1
    simp [List.mem_zipIdx_iff_getElem?.mp hmem]

theorem rearranges_without {deleted : Finset Nat}
    (hdeleted : ∀ position ∈ deleted, intervals[position]?.map Interval.physical ≠ some none) :
    Rearranges (fun i => ((remaining deleted intervals.length)[i]?).getD 0) intervals
      (without deleted intervals) := by
  have hsorted : (remaining deleted intervals.length).Pairwise (· < ·) :=
    List.pairwise_lt_range.filter _
  constructor
  case get =>
    intro i hi
    rw [length_without] at hi
    rw [getElem?_without, List.getElem?_eq_getElem hi]
    rfl
  case onto =>
    intro p interval hp hnone
    have hmem : p ∈ remaining deleted intervals.length := by
      rw [remaining, List.mem_filter, List.mem_range]
      refine ⟨(List.getElem?_eq_some_iff.mp hp).1, decide_eq_true fun hin => ?_⟩
      exact hdeleted p hin (by rw [hp, Option.map_some, hnone])
    obtain ⟨i, hi, heq⟩ := List.getElem_of_mem hmem
    refine ⟨i, by rwa [length_without], ?_⟩
    rw [List.getElem?_eq_getElem hi, heq]
    rfl
  case stable =>
    intro i j a b hij hi hj _ _ _
    have hj' := (List.getElem?_eq_some_iff.mp hj).1
    rw [length_without] at hj'
    rw [List.getElem?_eq_getElem (Nat.lt_trans hij hj'), List.getElem?_eq_getElem hj']
    exact List.pairwise_iff_getElem.mp hsorted i j _ hj' hij

/-- **Allocation does not depend on order, nor on intervals that have a register.**  If intervals
are permuted, waiting ones of equal starts keeping their order, then the results are permuted in the
same way.  If intervals that came with a register are deleted, then their results are deleted, and
all others are the same. -/
theorem allocate_order_independent (pool : Nat) (intervals : List Interval) :
    (∀ (permuted : List Interval) (σ : Fin permuted.length ≃ Fin intervals.length),
      (∀ i, permuted[i] = intervals[σ i]) →
      (∀ i j, i < j → permuted[i].physical = none → permuted[j].physical = none →
        permuted[i].start = permuted[j].start → σ i < σ j) →
      ∀ i, (allocate pool permuted).value[i.val]? =
        (allocate pool intervals).value[(σ i).val]?) ∧
    ∀ deleted : Finset Nat,
      (∀ position ∈ deleted, intervals[position]?.map Interval.physical ≠ some none) →
      (allocate pool (without deleted intervals)).value =
        without deleted (allocate pool intervals).value := by
  constructor
  · intro permuted σ hget hstable i
    have h := (rearranges_of_equiv σ hget hstable).getElem?_allocate_eq pool i.isLt
    rwa [dif_pos i.isLt] at h
  · intro deleted hdeleted
    have h := rearranges_without hdeleted
    refine List.ext_getElem? fun i => ?_
    rw [getElem?_without, length_allocate]
    by_cases hi : i < (remaining deleted intervals.length).length
    · rw [h.getElem?_allocate_eq pool (by rwa [length_without]), List.getElem?_eq_getElem hi]
      rfl
    · have hlength := length_without deleted intervals
      rw [List.getElem?_eq_none (by rw [length_allocate]; omega),
        List.getElem?_eq_none (Nat.le_of_not_lt hi)]
      rfl

/-- Five intervals in two orders, `b` being in front of `c` in both, and without the one that came
with a register.  With two registers `a` is evicted first and then `c`, in all three lists. -/
theorem allocate_order_independent_five :
    let intervals : List Interval := [⟨"b", 2, 6, none, none⟩, ⟨"fp", 0, 9, some "fp", none⟩,
      ⟨"a", 0, 9, none, none⟩, ⟨"c", 2, 6, none, none⟩, ⟨"d", 3, 4, none, none⟩]
    let permuted : List Interval := [⟨"d", 3, 4, none, none⟩, ⟨"b", 2, 6, none, none⟩,
      ⟨"c", 2, 6, none, none⟩, ⟨"fp", 0, 9, some "fp", none⟩, ⟨"a", 0, 9, none, none⟩]
    let σ : Fin 5 ≃ Fin 5 := ⟨![4, 0, 3, 1, 2], ![1, 3, 4, 2, 0], by decide, by decide⟩
    (allocate 2 intervals).value.map Interval.slot = [none, none, some 0, some 1, none] ∧
      (∀ i : Fin 5, (allocate 2 permuted).value[i.val]? =
        (allocate 2 intervals).value[(σ i).val]?) ∧
      (allocate 2 (without {1} intervals)).value = without {1} (allocate 2 intervals).value := by
  intro intervals permuted σ
  obtain ⟨hpermuted, hdeleted⟩ := allocate_order_independent 2 intervals
  refine ⟨by decide +kernel, hpermuted permuted σ (by decide) (by decide), hdeleted {1} ?_⟩
  decide

end TurtleAlloc
