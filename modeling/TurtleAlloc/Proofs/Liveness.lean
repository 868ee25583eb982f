import Mathlib
import TurtleAlloc.Interval.Liveness

/-!
# What live intervals cover

* `Code.references` — every occurrence of a register in a stream, in the order in which liveness
  meets them; `liveIntervals_eq_foldl` says that liveness is one pass over it.
* `Code.Covers` — the invariant of that pass: one interval for each name met so far, from its
  first occurrence to its last, pinned names kept in themselves.
* `Code.covers_liveIntervals` — the invariant of a whole stream.
-/

namespace TurtleAlloc

/-! ## Roles and names -/

namespace Line

theorem mem_referenced_of_mem_sources {line : Line} {name : String} (h : name ∈ line.sources) :
    name ∈ line.referenced := by
  cases line with
  | label _ => cases h
  | instr opcode operands =>
    simp only [sources, registersOf, referenced] at h ⊢
    split at h
    · exact h
    · split at h
      · simp only [List.mem_reverse] at h ⊢
        exact ((List.tail_sublist operands).filterMap _).subset h
      · cases h

theorem mem_referenced_of_mem_destinations {line : Line} {name : String}
    (h : name ∈ line.destinations) : name ∈ line.referenced := by
  cases line with
  | label _ => cases h
  | instr opcode operands =>
    simp only [destinations, registersOf, referenced] at h ⊢
    split at h
    · simp only [List.mem_reverse] at h ⊢
      exact ((List.take_sublist 1 operands).filterMap _).subset h
    · cases h

end Line

/-- Among intervals of different registers each is found by its register. -/
theorem Interval.find?_register {intervals : List Interval} {interval : Interval}
    (hnodup : (intervals.map Interval.register).Nodup) (h : interval ∈ intervals) :
    intervals.find? (fun i => i.register == interval.register) = some interval := by
  cases hfind : intervals.find? (fun i => i.register == interval.register) with
  | none =>
    rw [List.find?_eq_none] at hfind
    exact absurd (beq_self_eq_true _) (hfind interval h)
  | some found =>
    have hfound := List.find?_some hfind
    exact congrArg some
      (List.inj_on_of_nodup_map hnodup (List.mem_of_find?_eq_some hfind) h
        (beq_iff_eq.mp hfound))

namespace Code

/-- The names that occur as register operands, each as often as it occurs. -/
def names (code : Code) : List String :=
  code.flatMap Line.referenced

theorem mem_names {code : Code} {name : String} :
    name ∈ code.names ↔
      ∃ (index : Nat) (line : Line), code[index]? = some line ∧ name ∈ line.referenced := by
  rw [names, List.mem_flatMap]
  constructor
  · rintro ⟨line, hmem, hname⟩
    obtain ⟨index, hget⟩ := List.mem_iff_getElem?.mp hmem
    exact ⟨index, line, hget, hname⟩
  · rintro ⟨index, line, hget, hname⟩
    exact ⟨line, List.mem_of_getElem? hget, hname⟩

/-- The line at a position writes a register. -/
def Writes (code : Code) (index : Nat) (name : String) : Prop :=
  ∃ line, code[index]? = some line ∧ name ∈ line.destinations

instance (code : Code) (index : Nat) (name : String) : Decidable (code.Writes index name) :=
  match h : code[index]? with
  | none => isFalse (by simp [Writes, h])
  | some line => decidable_of_iff (name ∈ line.destinations) (by simp [Writes, h])

/-- The line at a position reads a register. -/
def Reads (code : Code) (index : Nat) (name : String) : Prop :=
  ∃ line, code[index]? = some line ∧ name ∈ line.sources

instance (code : Code) (index : Nat) (name : String) : Decidable (code.Reads index name) :=
  match h : code[index]? with
  | none => isFalse (by simp [Reads, h])
  | some line => decidable_of_iff (name ∈ line.sources) (by simp [Reads, h])

/-- The occurrences of registers, line by line, each line from its last operand to its first. -/
def references (code : Code) : List (Nat × String) :=
  code.zipIdx.flatMap fun (line, index) => line.referenced.map fun name => (index, name)

theorem mem_references {code : Code} {index : Nat} {name : String} :
    (index, name) ∈ code.references ↔
      ∃ line, code[index]? = some line ∧ name ∈ line.referenced := by
  simp only [references, List.mem_flatMap, List.mem_map, Prod.exists, Prod.mk.injEq,
    List.mem_zipIdx_iff_getElem?]
  constructor
  · rintro ⟨line, _, hget, _, hname, rfl, rfl⟩
    exact ⟨line, hget, hname⟩
  · rintro ⟨line, hget, hname⟩
    exact ⟨line, index, hget, name, hname, rfl, rfl⟩

theorem references_pairwise (code : Code) :
    code.references.Pairwise fun a b => a.1 ≤ b.1 := by
  unfold references
  rw [List.pairwise_flatMap]
  constructor
  · intro entry _
    rw [List.pairwise_map]
    exact List.pairwise_of_forall fun _ _ => Nat.le_refl _
  · refine (zipIdx_pairwise code).imp ?_
    rintro a b hlt x hx y hy
    obtain ⟨_, _, rfl⟩ := List.mem_map.mp hx
    obtain ⟨_, _, rfl⟩ := List.mem_map.mp hy
    exact Nat.le_of_lt hlt

theorem liveIntervals_eq_foldl (code : Code) :
    code.liveIntervals = code.references.foldl
      (fun intervals reference => Interval.reference reference.1 intervals reference.2) [] := by
  simp only [liveIntervals, references, List.foldl_flatMap, List.foldl_map]

/-! ## The invariant of the pass -/

/-- The intervals of some occurrences. -/
structure Covers (references : List (Nat × String)) (intervals : List Interval) : Prop where
  nodup : (intervals.map Interval.register).Nodup
  start_mem : ∀ i ∈ intervals, (i.start, i.register) ∈ references
  stop_mem : ∀ i ∈ intervals, ∃ last, i.stop = last + 1 ∧ (last, i.register) ∈ references
  contains : ∀ r ∈ references, ∃ i ∈ intervals, i.register = r.2 ∧ i.contains r.1
  physical : ∀ i ∈ intervals,
    i.physical = if Register.isPinned i.register then some i.register else none
  slot : ∀ i ∈ intervals, i.slot = none

theorem Covers.reference {references : List (Nat × String)} {intervals : List Interval}
    (h : Covers references intervals) {index : Nat} (hindex : ∀ r ∈ references, r.1 ≤ index)
    (name : String) :
    Covers (references ++ [(index, name)]) (Interval.reference index intervals name) := by
  unfold Interval.reference
  split
  · -- the name is known: its interval is stretched
    rename_i hknown
    obtain ⟨known, hmem, hname⟩ := List.any_eq_true.mp hknown
    rw [beq_iff_eq] at hname
    set stretch : Interval → Interval := fun interval =>
      if interval.register = name then interval.extend index else interval with hstretch
    have hregister : ∀ i, (stretch i).register = i.register := by
      intro i
      simp only [hstretch]
      split <;> rfl
    have hstart : ∀ i, (stretch i).start = i.start := by
      intro i
      simp only [hstretch]
      split <;> rfl
    constructor
    case nodup =>
      have hcomp : Interval.register ∘ stretch = Interval.register := funext hregister
      rw [List.map_map, hcomp]
      exact h.nodup
    case start_mem =>
      intro i hi
      obtain ⟨j, hj, rfl⟩ := List.mem_map.mp hi
      rw [hstart, hregister]
      exact List.mem_append_left _ (h.start_mem j hj)
    case stop_mem =>
      intro i hi
      obtain ⟨j, hj, rfl⟩ := List.mem_map.mp hi
      rw [hregister]
      by_cases heq : j.register = name
      · exact ⟨index, by simp [hstretch, heq, Interval.extend], by simp [heq]⟩
      · obtain ⟨last, hstop, hlast⟩ := h.stop_mem j hj
        exact ⟨last, by simp [hstretch, heq, hstop], List.mem_append_left _ hlast⟩
    case contains =>
      intro r hr
      rcases List.mem_append.mp hr with hr | hr
      · obtain ⟨i, hi, hir, hcontains⟩ := h.contains r hr
        refine ⟨stretch i, List.mem_map_of_mem hi, by rw [hregister, hir], ?_⟩
        have hle := hindex r hr
        by_cases heq : i.register = name
        · rw [Interval.contains_iff] at hcontains ⊢
          simp only [hstretch, heq, if_true, Interval.extend]
          omega
        · simpa [hstretch, heq] using hcontains
      · rw [List.mem_singleton.mp hr]
        refine ⟨stretch known, List.mem_map_of_mem hmem, by rw [hregister, hname], ?_⟩
        have hle := hindex _ (h.start_mem known hmem)
        rw [Interval.contains_iff]
        simp only [hstretch, hname, if_true, Interval.extend]
        omega
    case physical =>
      intro i hi
      obtain ⟨j, hj, rfl⟩ := List.mem_map.mp hi
      rw [hregister, ← h.physical j hj]
      simp only [hstretch]
      split <;> rfl
    case slot =>
      intro i hi
      obtain ⟨j, hj, rfl⟩ := List.mem_map.mp hi
      rw [← h.slot j hj]
      simp only [hstretch]
      split <;> rfl
  · -- the name is new: its interval is one line long
    rename_i hnew
    have hfresh : ∀ i ∈ intervals, i.register ≠ name := by
      intro i hi heq
      exact hnew (List.any_eq_true.mpr ⟨i, hi, by simp [heq]⟩)
    constructor
    case nodup =>
      rw [List.map_append, List.nodup_append]
      refine ⟨h.nodup, by simp, ?_⟩
      intro register hregister other hother
      obtain ⟨i, hi, rfl⟩ := List.mem_map.mp hregister
      simp only [List.map_cons, List.map_nil, List.mem_singleton] at hother
      rw [hother]
      exact hfresh i hi
    case start_mem =>
      intro i hi
      rcases List.mem_append.mp hi with hi | hi
      · exact List.mem_append_left _ (h.start_mem i hi)
      · rw [List.mem_singleton.mp hi]
        exact List.mem_append_right _ (List.mem_singleton.mpr rfl)
    case stop_mem =>
      intro i hi
      rcases List.mem_append.mp hi with hi | hi
      · obtain ⟨last, hstop, hlast⟩ := h.stop_mem i hi
        exact ⟨last, hstop, List.mem_append_left _ hlast⟩
      · rw [List.mem_singleton.mp hi]
        exact ⟨index, rfl, List.mem_append_right _ (List.mem_singleton.mpr rfl)⟩
    case contains =>
      intro r hr
      rcases List.mem_append.mp hr with hr | hr
      · obtain ⟨i, hi, hcovers⟩ := h.contains r hr
        exact ⟨i, List.mem_append_left _ hi, hcovers⟩
      · rw [List.mem_singleton.mp hr]
        exact ⟨.ofReference index name, List.mem_append_right _ (List.mem_singleton.mpr rfl), rfl,
          by simp [Interval.contains, Interval.ofReference]⟩
    case physical =>
      intro i hi
      rcases List.mem_append.mp hi with hi | hi
      · exact h.physical i hi
      · rw [List.mem_singleton.mp hi]
        rfl
    case slot =>
      intro i hi
      rcases List.mem_append.mp hi with hi | hi
      · exact h.slot i hi
      · rw [List.mem_singleton.mp hi]
        rfl

/-- The intervals that a pass over some occurrences leaves. -/
theorem covers_foldl {references : List (Nat × String)}
    (hsorted : references.Pairwise fun a b => a.1 ≤ b.1) :
    Covers references (references.foldl
      (fun intervals reference => Interval.reference reference.1 intervals reference.2) []) := by
  induction references using List.reverseRecOn with
  | nil => constructor <;> simp
  | append_singleton references reference ih =>
    rw [List.foldl_append]
    rw [List.pairwise_append] at hsorted
    refine (ih hsorted.1).reference ?_ reference.2
    exact fun r hr => hsorted.2.2 r hr reference (List.mem_singleton.mpr rfl)

/-- **The live intervals of a stream cover its occurrences.** -/
theorem covers_liveIntervals (code : Code) : Covers code.references code.liveIntervals := by
  rw [liveIntervals_eq_foldl]
  exact covers_foldl code.references_pairwise

theorem start_lt_stop_of_mem_liveIntervals {code : Code} {interval : Interval}
    (h : interval ∈ code.liveIntervals) : interval.start < interval.stop := by
  obtain ⟨other, hother, hregister, hcontains⟩ :=
    code.covers_liveIntervals.contains _ (code.covers_liveIntervals.start_mem interval h)
  have heq : other = interval :=
    List.inj_on_of_nodup_map code.covers_liveIntervals.nodup hother h hregister
  subst heq
  rw [Interval.contains_iff] at hcontains
  exact hcontains.2

end Code

end TurtleAlloc
