import Mathlib
import TurtleAlloc.Proofs.Allocation.Image
import TurtleAlloc.Proofs.Liveness

/-!
# Allocation does not look at the names of registers

* `Interval.relabel`, `Candidate.relabel` — the same intervals for registers with other names.
* `Candidate.disguise_relabel` — the scan does not notice other names.
* `allocate_relabel` — so every interval gets the same place.
* `Code.liveIntervals_mapRegisters` — a stream with other names has the relabelled intervals, as
  long as no two registers are confused and pinned ones stay what they are.
-/

namespace TurtleAlloc

variable (f : String → String)

/-! ## Relabelled intervals -/

/-- The interval of a register with another name. -/
def Interval.relabel (interval : Interval) : Interval :=
  { interval with register := f interval.register }

namespace Interval

variable (interval : Interval)

@[simp] theorem register_relabel : (interval.relabel f).register = f interval.register := rfl

@[simp] theorem start_relabel : (interval.relabel f).start = interval.start := rfl

@[simp] theorem stop_relabel : (interval.relabel f).stop = interval.stop := rfl

@[simp] theorem physical_relabel : (interval.relabel f).physical = interval.physical := rfl

@[simp] theorem slot_relabel : (interval.relabel f).slot = interval.slot := rfl

theorem keepIn_relabel (home : Home) :
    (interval.relabel f).keepIn home = (interval.keepIn home).relabel f := by
  cases home <;> rfl

end Interval

/-! ## The order of the visits -/

namespace Candidate

/-- A candidate under another name. -/
def relabel (candidate : Candidate) : Candidate :=
  { candidate with interval := candidate.interval.relabel f }

@[simp] theorem interval_relabel (candidate : Candidate) :
    (candidate.relabel f).interval = candidate.interval.relabel f := rfl

theorem disguise_relabel : Disguise (relabel f) id :=
  ⟨fun _ => rfl, fun _ => rfl, fun _ => rfl⟩

theorem ofIntervals_relabel (intervals : List Interval) :
    ofIntervals (intervals.map (Interval.relabel f)) =
      (ofIntervals intervals).map (relabel f) := by
  unfold ofIntervals waiting
  rw [← sort_image (disguise_relabel f), List.zipIdx_map, List.filterMap_map, List.map_filterMap]
  congr 2
  funext entry
  obtain ⟨interval, position⟩ := entry
  by_cases h : interval.physical = none
  · simp [h, relabel]
  · simp [h]

end Candidate

/-! ## The scan -/

theorem Scan.settle_relabel (scan : Scan) (interval : Interval) (position : Nat) :
    (scan.image (Candidate.relabel f) id).settle (interval.relabel f) position =
      (scan.settle interval position).relabel f := by
  have hhome : (scan.image (Candidate.relabel f) id).home? position = scan.home? position :=
    scan.home?_image fun _ _ heq => heq
  unfold settle
  rw [hhome]
  cases scan.home? position with
  | none => rfl
  | some home => exact interval.keepIn_relabel f home

/-- **Allocation gives a register its place whatever it is called.** -/
theorem allocate_relabel (pool : Nat) (intervals : List Interval) :
    (allocate pool (intervals.map (Interval.relabel f))).value =
      (allocate pool intervals).value.map (Interval.relabel f) := by
  have hscan : Scan.ofIntervals pool (intervals.map (Interval.relabel f)) =
      (Scan.ofIntervals pool intervals).image (Candidate.relabel f) id := by
    unfold Scan.ofIntervals
    rw [Candidate.ofIntervals_relabel]
    exact Scan.run_image (Candidate.disguise_relabel f) pool {} _
  refine List.ext_getElem? fun position => ?_
  rw [getElem?_allocate, hscan, List.getElem?_map, List.getElem?_map, getElem?_allocate,
    Option.map_map, Option.map_map]
  congr 1
  funext interval
  exact (Scan.ofIntervals pool intervals).settle_relabel f interval position

/-! ## The intervals of a stream -/

/-- The stream with every register replaced by its image. -/
def Code.mapRegisters (code : Code) : Code :=
  code.map (Line.mapRegisters f)

/-- No two of some names are confused, and pinned names alone are pinned afterwards, being kept. -/
structure Relabels (names : List String) : Prop where
  inj : ∀ a ∈ names, ∀ b ∈ names, f a = f b → a = b
  pinned : ∀ a ∈ names, Register.isPinned a = true → f a = a
  unpinned : ∀ a ∈ names, Register.isPinned a = false → Register.isPinned (f a) = false

variable {f} {names : List String} {intervals : List Interval} {name : String}

theorem Interval.ofReference_relabel (h : Relabels f names) (hname : name ∈ names) (index : Nat) :
    ofReference index (f name) = (ofReference index name).relabel f := by
  unfold ofReference relabel
  cases hpinned : Register.isPinned name with
  | true => simp [h.pinned name hname hpinned, hpinned]
  | false => simp [h.unpinned name hname hpinned]

/-- **One occurrence** of a relabelled register. -/
theorem Interval.reference_relabel (h : Relabels f names)
    (hknown : ∀ i ∈ intervals, i.register ∈ names) (hname : name ∈ names) (index : Nat) :
    reference index (intervals.map (relabel f)) (f name) =
      (reference index intervals name).map (relabel f) := by
  have hiff : ∀ i ∈ intervals, (i.relabel f).register = f name ↔ i.register = name := fun i hi =>
    ⟨h.inj _ (hknown i hi) _ hname, fun heq => congrArg f heq⟩
  have hany : ((intervals.map (relabel f)).any fun i => i.register == f name) =
      intervals.any fun i => i.register == name := by
    rw [List.any_map, Bool.eq_iff_iff, List.any_eq_true, List.any_eq_true]
    simp only [Function.comp_apply, beq_iff_eq]
    exact exists_congr fun i => and_congr_right fun hi => hiff i hi
  unfold reference
  rw [hany]
  split
  · rw [List.map_map, List.map_map]
    refine List.map_congr_left fun i hi => ?_
    simp only [Function.comp_apply, hiff i hi]
    split <;> rfl
  · rw [List.map_append, ofReference_relabel h hname]
    rfl

theorem Interval.register_mem_of_mem_reference {index : Nat} {interval : Interval}
    (hknown : ∀ i ∈ intervals, i.register ∈ names) (hname : name ∈ names)
    (h : interval ∈ reference index intervals name) : interval.register ∈ names := by
  unfold reference at h
  split at h
  · obtain ⟨i, hi, rfl⟩ := List.mem_map.mp h
    split
    · exact hknown i hi
    · exact hknown i hi
  · rcases List.mem_append.mp h with h | h
    · exact hknown interval h
    · rw [List.mem_singleton.mp h]
      exact hname

theorem Code.references_mapRegisters (code : Code) :
    (code.mapRegisters f).references =
      code.references.map fun reference => (reference.1, f reference.2) := by
  unfold references mapRegisters
  rw [List.zipIdx_map, List.flatMap_map, List.map_flatMap]
  refine List.flatMap_congr fun entry _ => ?_
  simp [Function.comp_def]

/-- **The live intervals of a stream with other names.** -/
theorem Code.liveIntervals_mapRegisters {code : Code} (h : Relabels f code.names) :
    (code.mapRegisters f).liveIntervals = code.liveIntervals.map (Interval.relabel f) := by
  have hnames : ∀ reference ∈ code.references, reference.2 ∈ code.names := by
    rintro ⟨index, name⟩ hmem
    obtain ⟨line, hget, hname⟩ := mem_references.mp hmem
    exact mem_names.mpr ⟨index, line, hget, hname⟩
  rw [liveIntervals_eq_foldl, liveIntervals_eq_foldl, references_mapRegisters, List.foldl_map]
  -- induction over the occurrences, from any intervals of names of the stream
  suffices ∀ (references : List (Nat × String)) (intervals : List Interval),
      (∀ reference ∈ references, reference.2 ∈ code.names) →
      (∀ i ∈ intervals, i.register ∈ code.names) →
      references.foldl (fun intervals reference =>
        Interval.reference reference.1 intervals (f reference.2))
          (intervals.map (Interval.relabel f)) =
        (references.foldl (fun intervals reference =>
          Interval.reference reference.1 intervals reference.2) intervals).map
            (Interval.relabel f) from
    this code.references [] hnames (by simp)
  intro references
  induction references with
  | nil =>
    intro intervals _ _
    rfl
  | cons reference later ih =>
    intro intervals hreferences hknown
    have hname := hreferences reference List.mem_cons_self
    rw [List.foldl_cons, List.foldl_cons, Interval.reference_relabel h hknown hname]
    apply ih
    · exact fun r hr => hreferences r (List.mem_cons_of_mem _ hr)
    · exact fun i hi => Interval.register_mem_of_mem_reference hknown hname hi

end TurtleAlloc
