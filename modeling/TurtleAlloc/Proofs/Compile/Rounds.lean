import Mathlib
import TurtleAlloc.Proofs.Allocation.Slots
import TurtleAlloc.Proofs.Compile.Placement

/-!
# The rounds of a compilation

A compilation tries one split of the registers into pool and temporaries after the other, until
spill code does not run short of temporaries or the pool is empty.

* `reserved` — the temporaries of a round.
* `Code.round` — what a round comes to.
* `Code.compileFrom_outcome` — which round decides, and how.
* `Code.Tries`, `Code.exists_last_round` — the rounds that are tried, the last of which gives the
  result.
* `Code.result_compile` — a compilation once its input is accepted.
-/

namespace TurtleAlloc

/-- The temporaries when `pool` registers of `registers` are left: the highest one first. -/
def reserved (registers pool : Nat) : List Nat :=
  (List.range' pool (registers - pool)).reverse

@[simp] theorem reserved_self (registers : Nat) : reserved registers registers = [] := by
  simp [reserved]

theorem reserved_append {registers pool : Nat} (h : pool < registers) :
    reserved registers (pool + 1) ++ [pool] = reserved registers pool := by
  have hlength : registers - pool = (registers - (pool + 1)) + 1 := by omega
  rw [reserved, reserved, hlength, List.range'_succ, List.reverse_cons]

@[simp] theorem length_reserved (registers pool : Nat) :
    (reserved registers pool).length = registers - pool := by
  simp [reserved]

theorem reserved_nodup (registers pool : Nat) : (reserved registers pool).Nodup :=
  List.nodup_reverse.mpr List.nodup_range'

theorem mem_reserved {registers pool number : Nat} (h : number ∈ reserved registers pool) :
    pool ≤ number ∧ number < registers := by
  rw [reserved, List.mem_reverse, List.mem_range'_1] at h
  omega

namespace Code

/-- The intervals that the round with a pool spills. -/
def spilledIn (code : Code) (pool : Nat) : List Interval :=
  (allocate pool code.liveIntervals).value.filter Interval.isSpilled

theorem mem_virtuals_of_mem_spilledIn {code : Code} {pool : Nat} {i : Interval}
    (hi : i ∈ code.spilledIn pool) : i.register ∈ code.virtuals := by
  have hplacement := placement_allocate code pool
  exact mem_virtuals.mpr ⟨hplacement.mem_names i (List.mem_filter.mp hi).1,
    (hplacement.exists_slot_lt hi).1⟩

theorem perm_slots_spilledIn (code : Code) (pool : Nat) :
    ((code.spilledIn pool).filterMap Interval.slot).Perm
      (List.range (code.spilledIn pool).length) :=
  perm_slots code.covers_liveIntervals.slot pool

/-- The slots of a round are the numbers below how many intervals it spills. -/
theorem exists_slot_lt_length {code : Code} {pool : Nat} {interval : Interval}
    (hmem : interval ∈ code.spilledIn pool) :
    ∃ slot < (code.spilledIn pool).length, interval.slot = some slot := by
  obtain ⟨_, slot, _, hslot⟩ := (placement_allocate code pool).exists_slot_lt hmem
  have hrange : slot ∈ (code.spilledIn pool).filterMap Interval.slot :=
    List.mem_filterMap.mpr ⟨interval, hmem, hslot⟩
  rw [(code.perm_slots_spilledIn pool).mem_iff, List.mem_range] at hrange
  exact ⟨slot, hrange, hslot⟩

/-- Sixteen bits tell the slots of a round apart if it has no more than there are words. -/
theorem slotsApart_spilledIn {code : Code} {pool : Nat}
    (h : (code.spilledIn pool).length ≤ 65536) : SlotsApart (code.spilledIn pool) := by
  intro i hi j hj slot other hslot hother hmod
  have hlt := Interval.slot_lt (exists_slot_lt_length hi) hslot
  have hlt' := Interval.slot_lt (exists_slot_lt_length hj) hother
  have heq : slot = other := Nat.ModEq.eq_of_lt_of_lt hmod (by omega) (by omega)
  exact (placement_allocate code pool).slot_inj i (List.mem_filter.mp hi).1 j
    (List.mem_filter.mp hj).1 slot hslot (heq ▸ hother)

/-- The stream as the round with a pool renames it. -/
def renamedIn (code : Code) (pool : Nat) : Code :=
  code.assign (allocate pool code.liveIntervals).value

/-- What the round with a pool comes to. -/
def round (code : Code) (registers pool : Nat) : Except SpillError (List Group) :=
  ((code.renamedIn pool).spill (code.spilledIn pool) (reserved registers pool)).result

theorem round_of_spilledIn_eq_nil {code : Code} {pool : Nat} (registers : Nat)
    (h : code.spilledIn pool = []) :
    code.round registers pool = .ok ((code.renamedIn pool).map .ofLine) := by
  rw [round, h]
  rfl

theorem spillPlan_round {code : Code} {registers pool : Nat} (hpool : pool ≤ registers)
    (havoids : code.Avoids registers) (hslots : code.virtuals.length < 2 ^ 31) :
    SpillPlan (code.renamedIn pool) (code.spilledIn pool) (reserved registers pool) :=
  (placement_allocate code pool).spillPlan havoids hpool hslots (reserved_nodup registers pool)
    fun _ ht => mem_reserved ht

@[simp] theorem length_renamedIn (code : Code) (pool : Nat) :
    (code.renamedIn pool).length = code.length := by
  simp [renamedIn, assign]

theorem result_attempt (code : Code) (registers pool : Nat) :
    (code.attempt code.liveIntervals pool (reserved registers pool)).result =
      code.round registers pool := by
  unfold attempt
  rw [Attempt.result_bind, Attempt.result_lift]
  rfl

theorem result_compileFrom (code : Code) (intervals : List Interval) (pool : Nat)
    (temporaries : List Nat) :
    (code.compileFrom intervals pool temporaries).result =
      match (code.attempt intervals pool temporaries).result with
      | .ok groups => .ok groups
      | .error .outOfTemporaries =>
        match pool with
        | 0 => .error .insufficientRegisters
        | number + 1 => (code.compileFrom intervals number (temporaries ++ [number])).result
      | .error cause => .error (.spill cause) := by
  rw [compileFrom.eq_def]
  show Logged.value (_ >>= _) = _
  rw [Logged.value_bind, Attempt.result]
  rcases (code.attempt intervals pool temporaries).run.value with cause | groups
  · cases cause with
    | outOfTemporaries => cases pool <;> rfl
    | missingLeadingEnter => rfl
    | missingSpillSlot => rfl
    | overflow => rfl
  · rfl

/-- **Which round decides.**  All rounds before it run short of temporaries; if it does so too, the
pool is empty. -/
theorem compileFrom_outcome (code : Code) {registers pool : Nat} (hpool : pool ≤ registers) :
    ∃ last ≤ pool,
      (∀ m, last < m → m ≤ pool → code.round registers m = .error .outOfTemporaries) ∧
      (code.round registers last = .error .outOfTemporaries → last = 0) ∧
      (code.compileFrom code.liveIntervals pool (reserved registers pool)).result =
        match code.round registers last with
        | .ok groups => .ok groups
        | .error .outOfTemporaries => .error .insufficientRegisters
        | .error cause => .error (.spill cause) := by
  induction pool with
  | zero =>
    refine ⟨0, Nat.le_refl 0, fun m hlt hle => by omega, fun _ => rfl, ?_⟩
    rw [result_compileFrom, result_attempt]
  | succ number ih =>
    by_cases hshort : code.round registers (number + 1) = .error .outOfTemporaries
    · obtain ⟨last, hlast, hbefore, hzero, hresult⟩ := ih (by omega)
      refine ⟨last, by omega, ?_, hzero, ?_⟩
      · intro m hlt hle
        rcases Nat.eq_or_lt_of_le hle with rfl | hlt'
        · exact hshort
        · exact hbefore m hlt (by omega)
      · rw [result_compileFrom, result_attempt, hshort, ← hresult, ← reserved_append hpool]
    · refine ⟨number + 1, Nat.le_refl _, fun m hlt hle => by omega,
        fun h => absurd h hshort, ?_⟩
      rw [result_compileFrom, result_attempt]
      rcases hround : code.round registers (number + 1) with cause | groups
      · cases cause with
        | outOfTemporaries => exact absurd hround hshort
        | missingLeadingEnter => rfl
        | missingSpillSlot => rfl
        | overflow => rfl
      · rfl

/-- A compilation tries the round with a pool if all rounds with larger ones run short of
temporaries. -/
def Tries (code : Code) (registers pool : Nat) : Prop :=
  ∀ larger ≤ registers, pool < larger → code.round registers larger = .error .outOfTemporaries

instance (code : Code) (registers pool : Nat) : Decidable (code.Tries registers pool) :=
  inferInstanceAs (Decidable (∀ larger ≤ registers, _))

theorem Tries.pred {code : Code} {registers number : Nat} (h : code.Tries registers (number + 1))
    (hshort : code.round registers (number + 1) = .error .outOfTemporaries) :
    code.Tries registers number := by
  intro larger hle hlt
  rcases Nat.eq_or_lt_of_le (Nat.succ_le_of_lt hlt) with rfl | hlt
  · exact hshort
  · exact h larger hle hlt

/-- Only one of the rounds that are tried succeeds. -/
theorem Tries.eq_of_ok {code : Code} {registers pool pool' : Nat} {groups groups' : List Group}
    (h : code.Tries registers pool) (h' : code.Tries registers pool')
    (hpool : pool ≤ registers) (hpool' : pool' ≤ registers)
    (hround : code.round registers pool = .ok groups)
    (hround' : code.round registers pool' = .ok groups') : pool = pool' := by
  rcases Nat.lt_trichotomy pool pool' with hlt | heq | hlt
  · cases (h pool' hpool' hlt).symm.trans hround'
  · exact heq
  · cases (h' pool hpool hlt).symm.trans hround

/-- The labels of a stream are accepted, or not looked at. -/
def LabelsAccepted (options : Options) (code : Code) : Prop :=
  options.validateLabels = true → ∃ table, LabelTable.ofCode code = .ok table

theorem labels_cases (options : Options) (code : Code) :
    LabelsAccepted options code ∨
      options.validateLabels = true ∧ ∃ duplicate, LabelTable.ofCode code = .error duplicate := by
  cases htable : LabelTable.ofCode code with
  | ok table => exact .inl fun _ => ⟨table, htable⟩
  | error duplicate =>
    by_cases hvalidate : options.validateLabels = true
    · exact .inr ⟨hvalidate, duplicate, rfl⟩
    · exact .inl fun h => absurd h hvalidate

theorem result_compileGroups {options : Options} {code : Code}
    (hlabels : LabelsAccepted options code) :
    (code.compileGroups options).result =
      if poolLimit ≤ options.registers then .error .poolTooLarge
      else (code.compileFrom code.liveIntervals options.registers []).result := by
  have hchecked : Attempt.result (ExceptT.lift code.liveness >>= fun intervals =>
      if poolLimit ≤ options.registers then
        throw .poolTooLarge >>= fun () => code.compileFrom intervals options.registers []
      else code.compileFrom intervals options.registers []) =
      if poolLimit ≤ options.registers then .error .poolTooLarge
      else (code.compileFrom code.liveIntervals options.registers []).result := by
    rw [Attempt.result_bind, Attempt.result_lift]
    by_cases hlimit : poolLimit ≤ options.registers
    · simp only [if_pos hlimit]
      rfl
    · simp only [if_neg hlimit]
      rfl
  unfold compileGroups
  by_cases hvalidate : options.validateLabels = true
  · obtain ⟨table, htable⟩ := hlabels hvalidate
    simp only [if_pos hvalidate, htable]
    exact hchecked
  · simp only [if_neg hvalidate]
    exact hchecked

/-- A compilation lays out the groups of its last round. -/
theorem result_compile {options : Options} {code : Code} (hlabels : LabelsAccepted options code) :
    (code.compile options).result =
      if poolLimit ≤ options.registers then .error .poolTooLarge
      else (code.compileFrom code.liveIntervals options.registers
        (reserved options.registers options.registers)).result.map ofGroups := by
  unfold compile
  rw [Attempt.result_bind, result_compileGroups hlabels, reserved_self]
  split_ifs
  · rfl
  · cases (code.compileFrom code.liveIntervals options.registers []).result <;> rfl

theorem result_compile_of_duplicate {options : Options} {code : Code}
    (hvalidate : options.validateLabels = true) {duplicate : DuplicateLabel}
    (hlabels : LabelTable.ofCode code = .error duplicate) :
    (code.compile options).result = .error (.duplicateLabel duplicate.name) := by
  unfold compile compileGroups
  simp only [if_pos hvalidate, hlabels]
  rfl

theorem labelsAccepted_of_compileGroups {options : Options} {code : Code} {groups : List Group}
    (h : (code.compileGroups options).result = .ok groups) : LabelsAccepted options code := by
  intro hvalidate
  cases htable : LabelTable.ofCode code with
  | ok table => exact ⟨table, rfl⟩
  | error duplicate =>
    unfold compileGroups at h
    simp only [if_pos hvalidate, htable] at h
    cases h

/-- **The result of a compilation is that of the last round that it tries.** -/
theorem exists_last_round {options : Options} {code : Code} {groups : List Group}
    (h : (code.compileGroups options).result = .ok groups) :
    ∃ pool ≤ options.registers, code.Tries options.registers pool ∧
      code.round options.registers pool = .ok groups := by
  rw [result_compileGroups (labelsAccepted_of_compileGroups h)] at h
  split_ifs at h
  obtain ⟨last, hlast, hbefore, _, hresult⟩ :=
    code.compileFrom_outcome (Nat.le_refl options.registers)
  rw [reserved_self, h] at hresult
  refine ⟨last, hlast, fun larger hle hlt => hbefore larger hlt hle, ?_⟩
  rcases hround : code.round options.registers last with cause | groups'
  · rw [hround] at hresult
    cases cause <;> cases hresult
  · rw [hround] at hresult
    cases hresult
    rfl

theorem exists_round {options : Options} {code : Code} {groups : List Group}
    (h : (code.compileGroups options).result = .ok groups) :
    ∃ pool ≤ options.registers, code.round options.registers pool = .ok groups := by
  obtain ⟨pool, hpool, _, hround⟩ := exists_last_round h
  exact ⟨pool, hpool, hround⟩

theorem exists_groups {options : Options} {code out : Code}
    (h : (code.compile options).result = .ok out) :
    ∃ groups, (code.compileGroups options).result = .ok groups ∧ out = ofGroups groups := by
  unfold compile at h
  rw [Attempt.result_bind] at h
  cases hgroups : (code.compileGroups options).result with
  | error error =>
    rw [hgroups] at h
    cases h
  | ok groups =>
    rw [hgroups] at h
    cases h
    exact ⟨groups, rfl, rfl⟩

end Code

end TurtleAlloc
