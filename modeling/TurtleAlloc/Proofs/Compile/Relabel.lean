import Mathlib
import TurtleAlloc.Proofs.Compile.Names
import TurtleAlloc.Proofs.Spill.Relabel

/-!
# Compilation and the names of registers

* `Code.round_relabel` — a round comes to the same code under other names, unless a register that it
  spills has the name of a machine register under the old names or the new ones.
* `Code.Tries` — the rounds that a compilation tries.
* `compile_substitute` — so a compilation does not depend on the names either, if no register that a
  tried round spills has such a name; `compile_captures` is a stream for which it does.
-/

namespace TurtleAlloc

variable {f : String → String} {code : Code} {pool registers : Nat}

/-! ## One round -/

theorem LabelTable.declareAll_mapRegisters (table : LabelTable) (index : Nat) (code : Code) :
    table.declareAll index (code.mapRegisters f) = table.declareAll index code := by
  induction code generalizing table index with
  | nil => rfl
  | cons line rest ih =>
    cases line with
    | label name =>
      show (table.declare name index >>= fun table =>
        table.declareAll (index + 1) (Code.mapRegisters f rest)) = _
      simp only [ih]
      rfl
    | instr opcode operands => exact ih table (index + 1)

namespace Code

theorem spilledIn_relabel (h : Relabels f code.names) (pool : Nat) :
    (code.mapRegisters f).spilledIn pool = (code.spilledIn pool).map (Interval.relabel f) := by
  unfold spilledIn
  rw [liveIntervals_mapRegisters h, allocate_relabel, List.filter_map]
  rfl

theorem physicalAt_relabel (h : Relabels f code.names)
    (hnames : Exchangeable registers f ((code.spilledIn pool).map Interval.register))
    (hpool : pool ≤ registers) {index : Nat} {line : Line} (hget : code[index]? = some line)
    {name : String} (hname : name ∈ line.referenced) :
    physicalAt (allocate pool (code.mapRegisters f).liveIntervals).value index (f name) =
      substitute f ((code.spilledIn pool).map Interval.register)
        (physicalAt (allocate pool code.liveIntervals).value index name) := by
  have hplacement := placement_allocate code pool
  obtain ⟨i, hi, rfl, hcontains, hlocation⟩ := hplacement.exists_mem_allocated hget hname
  have hmem : i.relabel f ∈ (allocate pool (code.mapRegisters f).liveIntervals).value := by
    rw [liveIntervals_mapRegisters h, allocate_relabel]
    exact List.mem_map_of_mem hi
  have hrelabelled := (placement_allocate (code.mapRegisters f) pool).physicalAt_eq hmem hcontains
  rw [Interval.register_relabel] at hrelabelled
  rw [hrelabelled, hlocation, Interval.location, Interval.location, Interval.physical_relabel,
    Interval.register_relabel]
  cases hplacement.placed i hi with
  | pinned hpinned hphysical _ =>
    rw [hphysical]
    exact (substitute_of_isMachine hnames (.inl hpinned)).symm
  | register _ number hnumber hphysical _ =>
    rw [hphysical]
    exact (substitute_of_isMachine hnames (.inr ⟨number, by omega, rfl⟩)).symm
  | slot _ number _ hphysical hslot =>
    have hspilled : i ∈ code.spilledIn pool :=
      List.mem_filter.mpr ⟨hi, by simp [Interval.isSpilled, hphysical, hslot]⟩
    rw [hphysical, Option.getD_none, Option.getD_none, substitute,
      if_pos (List.mem_map_of_mem hspilled)]

theorem renamedIn_relabel (h : Relabels f code.names)
    (hnames : Exchangeable registers f ((code.spilledIn pool).map Interval.register))
    (hpool : pool ≤ registers) :
    (code.mapRegisters f).renamedIn pool =
      (code.renamedIn pool).mapRegisters
        (substitute f ((code.spilledIn pool).map Interval.register)) := by
  refine List.ext_getElem? fun index => ?_
  rw [renamedIn, renamedIn, mapRegisters, mapRegisters, getElem?_assign, List.getElem?_map,
    List.getElem?_map, getElem?_assign]
  cases hget : code[index]? with
  | none => rfl
  | some line =>
    simp only [Option.map_some, Line.mapRegisters_mapRegisters, Option.some.injEq]
    exact Line.mapRegisters_congr fun name hname =>
      physicalAt_relabel h hnames hpool hget hname

/-- **A round under other names** comes to the same code. -/
theorem round_relabel (h : Relabels f code.names) (hroles : code.HasRoles)
    (hnames : Exchangeable registers f ((code.spilledIn pool).map Interval.register))
    (hpool : pool ≤ registers) :
    ((code.mapRegisters f).round registers pool).map ofGroups =
      (code.round registers pool).map ofGroups := by
  unfold round
  rw [spilledIn_relabel h, renamedIn_relabel h hnames hpool]
  apply spill_relabel hnames
  · exact fun t ht => (mem_reserved ht).2
  · exact fun size index line hget => hroles.grow_renamedIn hpool hget

/-! ## All rounds -/

theorem result_map_compileFrom (code : Code) (registers pool : Nat) :
    (code.compileFrom code.liveIntervals pool (reserved registers pool)).result.map ofGroups =
      match (code.round registers pool).map ofGroups with
      | .ok out => .ok out
      | .error .outOfTemporaries =>
        match pool with
        | 0 => .error .insufficientRegisters
        | number + 1 => (code.compileFrom code.liveIntervals number
          (reserved registers (number + 1) ++ [number])).result.map ofGroups
      | .error cause => .error (.spill cause) := by
  rw [result_compileFrom, result_attempt]
  rcases code.round registers pool with cause | groups
  · cases cause with
    | outOfTemporaries => cases pool <;> rfl
    | missingLeadingEnter => rfl
    | missingSpillSlot => rfl
    | overflow => rfl
  · rfl

/-- **All rounds under other names** come to the same code. -/
theorem compileFrom_relabel (h : Relabels f code.names) (hroles : code.HasRoles)
    (hnames : ∀ pool ≤ registers, code.Tries registers pool →
      Exchangeable registers f ((code.spilledIn pool).map Interval.register))
    (hpool : pool ≤ registers) (htries : code.Tries registers pool) :
    ((code.mapRegisters f).compileFrom (code.mapRegisters f).liveIntervals pool
        (reserved registers pool)).result.map ofGroups =
      (code.compileFrom code.liveIntervals pool (reserved registers pool)).result.map
        ofGroups := by
  -- induction over the pool: a round that runs short of temporaries does so under both names
  induction pool with
  | zero =>
    rw [result_map_compileFrom, result_map_compileFrom,
      round_relabel h hroles (hnames 0 hpool htries) hpool]
  | succ number ih =>
    rw [result_map_compileFrom, result_map_compileFrom,
      round_relabel h hroles (hnames (number + 1) hpool htries) hpool]
    rcases hround : code.round registers (number + 1) with cause | groups
    · cases cause with
      | outOfTemporaries =>
        have hnext := ih (by omega) (htries.pred hround)
        rw [← reserved_append hpool] at hnext
        exact hnext
      | missingLeadingEnter => rfl
      | missingSpillSlot => rfl
      | overflow => rfl
    · rfl

/-- **A compilation under other names** comes to the same result. -/
theorem compile_relabel {options : Options} (h : Relabels f code.names) (hroles : code.HasRoles)
    (hnames : ∀ pool ≤ options.registers, code.Tries options.registers pool →
      Exchangeable options.registers f ((code.spilledIn pool).map Interval.register)) :
    ((code.mapRegisters f).compile options).result = (code.compile options).result := by
  have htable : LabelTable.ofCode (code.mapRegisters f) = LabelTable.ofCode code :=
    LabelTable.declareAll_mapRegisters _ 0 code
  rcases labels_cases options code with hlabels | ⟨hvalidate, duplicate, hcode⟩
  · have hlabels' : LabelsAccepted options (code.mapRegisters f) := by
      unfold LabelsAccepted
      rw [htable]
      exact hlabels
    have htries : code.Tries options.registers options.registers := by
      intro larger hle hlt
      omega
    rw [result_compile hlabels, result_compile hlabels',
      compileFrom_relabel h hroles hnames (Nat.le_refl _) htries]
  · rw [result_compile_of_duplicate hvalidate hcode,
      result_compile_of_duplicate hvalidate (htable.trans hcode)]

/-! ## Other names for the registers that are not pinned -/

theorem relabels_substitute (hinj : ∀ a ∈ code.virtuals, ∀ b ∈ code.virtuals, f a = f b → a = b)
    (hunpinned : ∀ a ∈ code.virtuals, Register.isPinned (f a) = false) :
    Relabels (substitute f code.virtuals) code.names := by
  have hkept : ∀ a, Register.isPinned a = true → substitute f code.virtuals a = a := by
    intro a hpinned
    refine if_neg fun hmem => ?_
    rw [(mem_virtuals.mp hmem).2] at hpinned
    cases hpinned
  have himage : ∀ a ∈ code.names, Register.isPinned a = false →
      a ∈ code.virtuals ∧ substitute f code.virtuals a = f a := fun a ha hpinned =>
    ⟨mem_virtuals.mpr ⟨ha, hpinned⟩, if_pos (mem_virtuals.mpr ⟨ha, hpinned⟩)⟩
  have hpinned_iff : ∀ a ∈ code.names,
      Register.isPinned (substitute f code.virtuals a) = Register.isPinned a := by
    intro a ha
    cases hpinned : Register.isPinned a with
    | true => rw [hkept a hpinned, hpinned]
    | false =>
      obtain ⟨hmem, heq⟩ := himage a ha hpinned
      rw [heq, hunpinned a hmem]
  refine ⟨fun a ha b hb heq => ?_, fun a _ => hkept a, fun a ha hpinned => ?_⟩
  · have hsame : Register.isPinned a = Register.isPinned b := by
      rw [← hpinned_iff a ha, heq, hpinned_iff b hb]
    cases hpinned : Register.isPinned b with
    | true => rwa [hkept a (hsame.trans hpinned), hkept b hpinned] at heq
    | false =>
      obtain ⟨hamem, haimage⟩ := himage a ha (hsame.trans hpinned)
      obtain ⟨hbmem, hbimage⟩ := himage b hb hpinned
      rw [haimage, hbimage] at heq
      exact hinj a hamem b hbmem heq
  · rw [hpinned_iff a ha, hpinned]

end Code

/-- **A compilation does not depend on the names of the registers that are not pinned**, if no
register that one of its rounds spills has the name of an allocatable one, under the old names or
the new ones. -/
theorem compile_substitute {options : Options} (hroles : code.HasRoles)
    (hinj : ∀ a ∈ code.virtuals, ∀ b ∈ code.virtuals, f a = f b → a = b)
    (hunpinned : ∀ a ∈ code.virtuals, Register.isPinned (f a) = false)
    (hclear : ∀ pool ≤ options.registers, code.Tries options.registers pool →
      ∀ i ∈ code.spilledIn pool, ∀ number < options.registers,
        i.register ≠ Register.physical number ∧ f i.register ≠ Register.physical number) :
    ((code.mapRegisters (substitute f code.virtuals)).compile options).result =
      (code.compile options).result := by
  have hrelabels := Code.relabels_substitute hinj hunpinned
  refine Code.compile_relabel hrelabels hroles fun pool hpool htries => ?_
  have hspilled : ∀ a ∈ (code.spilledIn pool).map Interval.register,
      a ∈ code.virtuals ∧ ∀ number < options.registers,
        a ≠ Register.physical number ∧ f a ≠ Register.physical number := by
    intro a ha
    obtain ⟨i, hi, rfl⟩ := List.mem_map.mp ha
    exact ⟨Code.mem_virtuals_of_mem_spilledIn hi, hclear pool hpool htries i hi⟩
  constructor
  case inj =>
    intro a ha b hb
    exact hrelabels.inj a (Code.mem_virtuals.mp (hspilled a ha).1).1 b
      (Code.mem_virtuals.mp (hspilled b hb).1).1
  case outside =>
    rintro a ha (hpinned | ⟨number, hnumber, heq⟩)
    · rw [(Code.mem_virtuals.mp (hspilled a ha).1).2] at hpinned
      cases hpinned
    · exact ((hspilled a ha).2 number hnumber).1 heq
  case image_outside =>
    intro a ha
    rw [substitute, if_pos (hspilled a ha).1]
    rintro (hpinned | ⟨number, hnumber, heq⟩)
    · rw [hunpinned a (hspilled a ha).1] at hpinned
      cases hpinned
    · exact ((hspilled a ha).2 number hnumber).2 heq

/-- A register may take the name of an allocatable one as long as it is never spilled.  With two
registers the first round runs short of temporaries; the second one spills `a` and `b`, not `c`. -/
theorem compile_substitute_kept :
    let code : Code := [.instr .enter [], .instr .li [.register "a", .number 1],
      .instr .li [.register "b", .number 2], .instr .li [.register "c", .number 3],
      .instr .add [.register "sp", .register "a", .register "c"],
      .instr .cmpi [.register "b", .number 0], .instr .cmpi [.register "a", .number 0]]
    let f : String → String := fun name =>
      if name = "a" then "x" else if name = "b" then "y" else "r0"
    code.HasRoles ∧ (∀ a ∈ code.virtuals, ∀ b ∈ code.virtuals, f a = f b → a = b) ∧
      (∀ a ∈ code.virtuals, Register.isPinned (f a) = false) ∧
      (∀ pool ≤ 2, code.Tries 2 pool → ∀ i ∈ code.spilledIn pool, ∀ number < 2,
        i.register ≠ Register.physical number ∧ f i.register ≠ Register.physical number) ∧
      ((code.mapRegisters (substitute f code.virtuals)).compile ⟨2, true⟩).result =
        (code.compile ⟨2, true⟩).result := by
  intro code f
  have hroles : code.HasRoles := by decide
  have hinj : ∀ a ∈ code.virtuals, ∀ b ∈ code.virtuals, f a = f b → a = b := by decide +kernel
  have hunpinned : ∀ a ∈ code.virtuals, Register.isPinned (f a) = false := by decide +kernel
  have hclear : ∀ pool ≤ 2, code.Tries 2 pool → ∀ i ∈ code.spilledIn pool, ∀ number < 2,
      i.register ≠ Register.physical number ∧ f i.register ≠ Register.physical number := by
    decide +kernel
  exact ⟨hroles, hinj, hunpinned, hclear, compile_substitute hroles hinj hunpinned hclear⟩

/-- **A spilled register may be mistaken for an allocatable one.**  In the same stream `a` is
spilled and `c` is kept in `r0`.  If `a` is called `r0` itself, the line that adds both has the name
twice, and the temporary of `a` replaces `c` as well. -/
theorem compile_captures :
    let code : Code := [.instr .enter [], .instr .li [.register "a", .number 1],
      .instr .li [.register "b", .number 2], .instr .li [.register "c", .number 3],
      .instr .add [.register "sp", .register "a", .register "c"],
      .instr .cmpi [.register "b", .number 0], .instr .cmpi [.register "a", .number 0]]
    let f : String → String := fun name => if name = "a" then "r0" else name
    let sums : Code → Code := List.filter fun line => line.opcode? == some .add
    code.HasRoles ∧ (∀ a ∈ code.virtuals, ∀ b ∈ code.virtuals, f a = f b → a = b) ∧
      (∀ a ∈ code.virtuals, Register.isPinned (f a) = false) ∧
      (code.compile ⟨2, true⟩).result.map sums =
        .ok [.instr .add [.register "sp", .register "r1", .register "r0"]] ∧
      ((code.mapRegisters (substitute f code.virtuals)).compile ⟨2, true⟩).result.map sums =
        .ok [.instr .add [.register "sp", .register "r1", .register "r1"]] := by
  decide +kernel

end TurtleAlloc
