import Mathlib
import TurtleAlloc.Proofs.Liveness

/-!
# Live intervals by their occurrences

* `Occurrence` — a register as the operand of a line; `Occurrence.Before` is the order in which
  liveness meets them, line by line and each line from its last operand to its first.
* `Code.occurrences` — all of them in this order.
* `Code.Opens` — the invariant of the pass over them: the intervals are listed in the order of the
  occurrences that open them.
* `IsLiveness` — the live intervals of a stream by what is true of them: the least and the greatest
  line of each register, and their order; `isLiveness_iff` says that these are the ones that
  liveness computes, and no others.
-/

namespace TurtleAlloc

/-- A register that stands at some position among the operands of a line. -/
structure Occurrence where
  index : Nat
  position : Nat
  name : String

namespace Occurrence

/-- One occurrence is met before the other. -/
def Before (a b : Occurrence) : Prop :=
  a.index < b.index ∨ a.index = b.index ∧ b.position < a.position

/-- What liveness notes of an occurrence. -/
def reference (o : Occurrence) : Nat × String := (o.index, o.name)

end Occurrence

/-- The operand at a position of a line is a certain register. -/
def Code.OccursAt (code : Code) (index position : Nat) (name : String) : Prop :=
  ∃ line, code[index]? = some line ∧ line.operands[position]? = some (.register name)

/-! ## Occurrences in order -/

namespace Line

variable (index : Nat) (line : Line)

/-- The registers of a line that stands at an index, the last operand first. -/
def occurrences : List Occurrence :=
  (line.operands.zipIdx.filterMap fun entry =>
    entry.1.register?.map fun name => ⟨index, entry.2, name⟩).reverse

variable {index line}

theorem mem_occurrences {o : Occurrence} :
    o ∈ line.occurrences index ↔
      o.index = index ∧ line.operands[o.position]? = some (.register o.name) := by
  obtain ⟨index', position, name⟩ := o
  simp only [occurrences, List.mem_reverse, List.mem_filterMap, Prod.exists,
    List.mem_zipIdx_iff_getElem?, Option.map_eq_some_iff, Occurrence.mk.injEq]
  constructor
  · rintro ⟨operand, _, hget, _, hregister, rfl, rfl, rfl⟩
    cases operand with
    | register other =>
      cases hregister
      exact ⟨rfl, hget⟩
    | label _ => cases hregister
    | number _ => cases hregister
  · rintro ⟨rfl, hget⟩
    exact ⟨_, position, hget, name, rfl, rfl, rfl, rfl⟩

theorem map_occurrences :
    (line.occurrences index).map Occurrence.reference =
      line.referenced.map fun name => (index, name) := by
  have hfst : line.operands.filterMap Operand.register? =
      line.operands.zipIdx.filterMap fun entry => entry.1.register? := by
    conv_lhs => rw [← List.zipIdx_map_fst 0 line.operands, List.filterMap_map]
    rfl
  rw [occurrences, referenced, registersOf, hfst, List.map_reverse, List.map_reverse,
    List.map_filterMap, List.map_filterMap]
  simp only [Option.map_map]
  rfl

theorem occurrences_pairwise : (line.occurrences index).Pairwise Occurrence.Before := by
  rw [occurrences, List.pairwise_reverse, List.pairwise_filterMap]
  refine (zipIdx_pairwise line.operands).imp fun hlt a ha b hb => ?_
  obtain ⟨_, _, rfl⟩ := Option.map_eq_some_iff.mp ha
  obtain ⟨_, _, rfl⟩ := Option.map_eq_some_iff.mp hb
  exact .inr ⟨rfl, hlt⟩

end Line

namespace Code

variable {code : Code}

/-- The registers of a stream in the order in which liveness meets them. -/
def occurrences (code : Code) : List Occurrence :=
  code.zipIdx.flatMap fun entry => entry.1.occurrences entry.2

theorem mem_occurrences {o : Occurrence} :
    o ∈ code.occurrences ↔ code.OccursAt o.index o.position o.name := by
  simp only [occurrences, List.mem_flatMap, Prod.exists, List.mem_zipIdx_iff_getElem?,
    Line.mem_occurrences, OccursAt]
  constructor
  · rintro ⟨line, _, hget, rfl, hoperand⟩
    exact ⟨line, hget, hoperand⟩
  · rintro ⟨line, hget, hoperand⟩
    exact ⟨line, o.index, hget, rfl, hoperand⟩

theorem map_occurrences (code : Code) :
    code.occurrences.map Occurrence.reference = code.references := by
  simp only [occurrences, references, List.map_flatMap, Line.map_occurrences]

theorem occurrences_pairwise (code : Code) : code.occurrences.Pairwise Occurrence.Before := by
  rw [occurrences, List.pairwise_flatMap]
  refine ⟨fun entry _ => Line.occurrences_pairwise, ?_⟩
  refine (zipIdx_pairwise code).imp fun hlt a ha b hb => .inl ?_
  rwa [(Line.mem_occurrences.mp ha).1, (Line.mem_occurrences.mp hb).1]

theorem mem_references_iff {index : Nat} {name : String} :
    (index, name) ∈ code.references ↔ ∃ position, code.OccursAt index position name := by
  simp only [← map_occurrences, List.mem_map, mem_occurrences]
  constructor
  · rintro ⟨o, ho, heq⟩
    cases heq
    exact ⟨o.position, ho⟩
  · rintro ⟨position, h⟩
    exact ⟨⟨index, position, name⟩, h, rfl⟩

/-! ## The order of the intervals -/

/-- Each interval is opened by an occurrence that comes before every occurrence of the registers of
the intervals behind it.  Of an interval only its start and its register matter. -/
def Opens (occurrences : List Occurrence) (openings : List (Nat × String)) : Prop :=
  openings.Pairwise fun a b => ∃ o ∈ occurrences, o.reference = a ∧
    ∀ later ∈ occurrences, later.name = b.2 → o.Before later

/-- Where an interval starts, and for which register. -/
def opening (interval : Interval) : Nat × String := (interval.start, interval.register)

theorem map_opening_reference (index : Nat) (intervals : List Interval) (name : String) :
    (Interval.reference index intervals name).map opening =
      if name ∈ intervals.map Interval.register then intervals.map opening
      else intervals.map opening ++ [(index, name)] := by
  have hknown : (intervals.any fun i => i.register == name) = true ↔
      name ∈ intervals.map Interval.register := by
    simp [List.any_eq_true]
  unfold Interval.reference
  simp only [hknown]
  split_ifs
  · rw [List.map_map]
    refine List.map_congr_left fun i _ => ?_
    simp only [Function.comp_apply]
    split_ifs <;> rfl
  · rw [List.map_append]
    rfl

/-- **One more occurrence**, behind all others. -/
theorem Opens.reference {occurrences : List Occurrence} {intervals : List Interval}
    (hcovers : Covers (occurrences.map Occurrence.reference) intervals)
    (h : Opens occurrences (intervals.map opening)) {o : Occurrence}
    (hlast : ∀ earlier ∈ occurrences, earlier.Before o) :
    Opens (occurrences ++ [o])
      ((Interval.reference o.index intervals o.name).map opening) := by
  have hkept : Opens (occurrences ++ [o]) (intervals.map opening) := by
    refine h.imp ?_
    rintro a b ⟨first, hfirst, hopens, hbefore⟩
    refine ⟨first, List.mem_append_left _ hfirst, hopens, fun later hlater hname => ?_⟩
    rcases List.mem_append.mp hlater with hlater | hlater
    · exact hbefore later hlater hname
    · rw [List.mem_singleton.mp hlater]
      exact hlast first hfirst
  rw [map_opening_reference]
  split_ifs with hknown
  · exact hkept
  · refine List.pairwise_append.mpr ⟨hkept, List.pairwise_singleton _ _, ?_⟩
    intro a ha b hb
    rw [List.mem_singleton.mp hb]
    obtain ⟨interval, hinterval, rfl⟩ := List.mem_map.mp ha
    obtain ⟨first, hfirst, hopens⟩ := List.mem_map.mp (hcovers.start_mem interval hinterval)
    refine ⟨first, List.mem_append_left _ hfirst, hopens, fun later hlater hname => ?_⟩
    rcases List.mem_append.mp hlater with hlater | hlater
    · -- a register that occurred before has an interval
      obtain ⟨i, hi, hregister, _⟩ := hcovers.contains _ (List.mem_map_of_mem hlater)
      exact absurd (List.mem_map.mpr ⟨i, hi, hregister.trans hname⟩) hknown
    · rw [List.mem_singleton.mp hlater]
      exact hlast first hfirst

theorem opens_foldl {occurrences : List Occurrence}
    (hsorted : occurrences.Pairwise Occurrence.Before) :
    Opens occurrences (((occurrences.map Occurrence.reference).foldl
      (fun intervals reference => Interval.reference reference.1 intervals reference.2) []).map
        opening) := by
  induction occurrences using List.reverseRecOn with
  | nil => exact List.Pairwise.nil
  | append_singleton occurrences o ih =>
    obtain ⟨hsorted, _, hlast⟩ := List.pairwise_append.mp hsorted
    have hindices : (occurrences.map Occurrence.reference).Pairwise fun a b => a.1 ≤ b.1 := by
      refine List.pairwise_map.mpr (hsorted.imp fun hbefore => ?_)
      unfold Occurrence.Before at hbefore
      simp only [Occurrence.reference]
      omega
    rw [List.map_append, List.foldl_append]
    exact Opens.reference (covers_foldl hindices) (ih hsorted) fun earlier hearlier =>
      hlast earlier hearlier o (List.mem_singleton.mpr rfl)

/-- **Intervals are listed in the order of the occurrences that open them.** -/
theorem opens_liveIntervals (code : Code) :
    Opens code.occurrences (code.liveIntervals.map opening) := by
  rw [liveIntervals_eq_foldl, ← map_occurrences]
  exact opens_foldl code.occurrences_pairwise

end Code

/-! ## Live intervals by what is true of them -/

/-- The lines that name a register. -/
def Code.linesOf (code : Code) (name : String) : Set Nat :=
  {index | ∃ position, code.OccursAt index position name}

/-- The positions of a register among the operands of a line. -/
def Code.positionsOf (code : Code) (index : Nat) (name : String) : Set Nat :=
  {position | code.OccursAt index position name}

/-- The live intervals of a stream. -/
structure IsLiveness (code : Code) (intervals : List Interval) : Prop where
  /-- No register has two intervals. -/
  nodup : (intervals.map Interval.register).Nodup
  /-- The registers that have one are those that the stream names. -/
  mem_iff : ∀ name, name ∈ intervals.map Interval.register ↔ (code.linesOf name).Nonempty
  /-- It starts with the first line that names the register. -/
  start : ∀ i ∈ intervals, IsLeast (code.linesOf i.register) i.start
  /-- It stops behind the last one. -/
  stop : ∀ i ∈ intervals, ∃ last, IsGreatest (code.linesOf i.register) last ∧ i.stop = last + 1
  slot : ∀ i ∈ intervals, i.slot = none
  physical : ∀ i ∈ intervals,
    i.physical = if i.register ∈ ["ra", "sp", "fp"] then some i.register else none
  /-- Intervals come by their starts, those with one start by the rightmost position of their
  registers in that line, the greater position first. -/
  order : intervals.Pairwise fun a b => a.start < b.start ∨ a.start = b.start ∧
    ∃ p q, IsGreatest (code.positionsOf a.start a.register) p ∧
      IsGreatest (code.positionsOf b.start b.register) q ∧ q < p

variable {code : Code} {intervals others : List Interval} {index position : Nat} {name : String}

theorem Code.OccursAt.exists_isGreatest (h : code.OccursAt index position name) :
    ∃ last, IsGreatest (code.positionsOf index name) last := by
  obtain ⟨line, hline, hoperand⟩ := h
  have hbounded : BddAbove (code.positionsOf index name) := by
    refine ⟨line.operands.length, ?_⟩
    rintro other ⟨line', hline', hother⟩
    cases hline.symm.trans hline'
    exact (List.getElem?_eq_some_iff.mp hother).1.le
  exact ⟨_, Nat.sSup_mem ⟨position, line, hline, hoperand⟩ hbounded,
    fun other hother => le_csSup hbounded hother⟩

/-- **Liveness computes the live intervals.** -/
theorem isLiveness_liveIntervals (code : Code) : IsLiveness code code.liveIntervals := by
  have hcovers := code.covers_liveIntervals
  have hinside : ∀ i ∈ code.liveIntervals, ∀ index ∈ code.linesOf i.register,
      i.contains index = true := by
    intro i hi index hindex
    obtain ⟨j, hj, hregister, hcontains⟩ := hcovers.contains _ (Code.mem_references_iff.mpr hindex)
    rwa [List.inj_on_of_nodup_map hcovers.nodup hj hi hregister] at hcontains
  constructor
  case nodup => exact hcovers.nodup
  case mem_iff =>
    intro name
    rw [List.mem_map]
    constructor
    · rintro ⟨i, hi, rfl⟩
      exact ⟨i.start, Code.mem_references_iff.mp (hcovers.start_mem i hi)⟩
    · rintro ⟨index, hindex⟩
      obtain ⟨i, hi, hregister, _⟩ := hcovers.contains _ (Code.mem_references_iff.mpr hindex)
      exact ⟨i, hi, hregister⟩
  case start =>
    intro i hi
    refine ⟨Code.mem_references_iff.mp (hcovers.start_mem i hi), fun index hindex => ?_⟩
    exact (Interval.contains_iff.mp (hinside i hi index hindex)).1
  case stop =>
    intro i hi
    obtain ⟨last, hstop, hlast⟩ := hcovers.stop_mem i hi
    refine ⟨last, ⟨Code.mem_references_iff.mp hlast, fun index hindex => ?_⟩, hstop⟩
    have hlt := (Interval.contains_iff.mp (hinside i hi index hindex)).2
    omega
  case slot => exact hcovers.slot
  case physical =>
    intro i hi
    simpa [Register.isPinned, Register.pinned] using hcovers.physical i hi
  case order =>
    refine (List.pairwise_map.mp code.opens_liveIntervals).imp_of_mem ?_
    rintro a b _ hb ⟨o, ho, hopens, hbefore⟩
    obtain ⟨hstart, hregister⟩ := Prod.mk.inj hopens
    rw [Code.mem_occurrences, hstart, hregister] at ho
    have hlater : ∀ q, code.OccursAt b.start q b.register → a.start < b.start ∨
        a.start = b.start ∧ q < o.position := by
      intro q hq
      have hfirst := hbefore ⟨b.start, q, b.register⟩ (Code.mem_occurrences.mpr hq) rfl
      rwa [Occurrence.Before, hstart] at hfirst
    obtain ⟨q, hq⟩ := Code.mem_references_iff.mp (hcovers.start_mem b hb)
    obtain ⟨p, hp⟩ := ho.exists_isGreatest
    obtain ⟨last, hlast⟩ := hq.exists_isGreatest
    refine (hlater last hlast.1).imp_right fun heq => ⟨heq.1, p, last, hp, hlast, ?_⟩
    exact heq.2.trans_le (hp.2 ho)

/-- Two lists of live intervals have the same members. -/
theorem IsLiveness.subset (h : IsLiveness code intervals) (h' : IsLiveness code others) :
    intervals ⊆ others := by
  intro i hi
  obtain ⟨j, hj, hregister⟩ := List.mem_map.mp
    ((h'.mem_iff i.register).mpr ((h.mem_iff i.register).mp (List.mem_map_of_mem hi)))
  have hstart := h'.start j hj
  obtain ⟨last, hlast, hstop⟩ := h'.stop j hj
  have hphysical := h'.physical j hj
  rw [hregister] at hstart hlast hphysical
  obtain ⟨last', hlast', hstop'⟩ := h.stop i hi
  have heq : i = j := by
    obtain ⟨register, start, stop, physical, slot⟩ := i
    obtain ⟨register', start', stop', physical', slot'⟩ := j
    simp only [Interval.mk.injEq]
    refine ⟨hregister.symm, (h.start _ hi).unique hstart, ?_, ?_, ?_⟩
    · exact hstop'.trans ((hlast'.unique hlast) ▸ hstop.symm)
    · exact (h.physical _ hi).trans hphysical.symm
    · exact (h.slot _ hi).trans (h'.slot _ hj).symm
  exact heq ▸ hj

/-- **Live intervals are what they are defined to be**: one for each register that the stream names,
from its first line to its last, in the order of the first lines and, in one line, from the last
operand to the first.  No other list of intervals is like this. -/
theorem isLiveness_iff (code : Code) (intervals : List Interval) :
    IsLiveness code intervals ↔ intervals = code.liveness.value := by
  rw [Code.value_liveness]
  have hlive := isLiveness_liveIntervals code
  constructor
  · intro h
    have hperm : intervals.Perm code.liveIntervals :=
      (List.perm_ext_iff_of_nodup h.nodup.of_map hlive.nodup.of_map).mpr
        fun i => ⟨fun hi => h.subset hlive hi, fun hi => hlive.subset h hi⟩
    refine hperm.eq_of_pairwise (fun a b _ _ hab hba => ?_) h.order hlive.order
    rcases hab with hlt | ⟨heq, p, q, hp, hq, hlt⟩
    · rcases hba with hlt' | ⟨heq', _⟩ <;> omega
    · rcases hba with hlt' | ⟨_, q', p', hq', hp', hlt'⟩
      · omega
      · rw [hp'.unique hp, hq'.unique hq] at hlt'
        omega
  · rintro rfl
    exact hlive

end TurtleAlloc
