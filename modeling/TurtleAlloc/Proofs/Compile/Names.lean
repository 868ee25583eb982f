import Mathlib
import TurtleAlloc.Proofs.Compile.Rounds
import TurtleAlloc.Proofs.Spill.Names

/-!
# The registers of a compiled stream

* `Code.HasRoles` — every register of a stream is read or written where it is named, a leading
  `ENTER` apart.
* `Placement.isMachine_or_spilled` — a renamed line names registers of the machine and spilled
  registers whose intervals contain it.
* `compile_isMachine` — a compiled stream names registers of the machine alone, whatever the
  registers of the stream are called.
-/

namespace TurtleAlloc

variable {code : Code} {pool registers index : Nat} {allocated : List Interval} {line : Line}
  {name : String} {groups : List Group}

namespace Code

/-- The lines behind a leading `ENTER`. -/
def body : Code → Code
  | .instr .enter _ :: rest => rest
  | code => code

/-- Every register that a stream names is read or written there, unless a leading `ENTER` names
it. -/
def HasRoles (code : Code) : Prop :=
  ∀ line ∈ code.body, line.HasRoles

instance (code : Code) : Decidable code.HasRoles :=
  inferInstanceAs (Decidable (∀ line ∈ code.body, _))

theorem HasRoles.of_getElem?_succ (h : code.HasRoles) (hget : code[index + 1]? = some line) :
    line.HasRoles := by
  apply h
  unfold body
  split
  · rw [List.getElem?_cons_succ] at hget
    exact List.mem_of_getElem? hget
  · exact List.mem_of_getElem? hget

end Code

theorem Placement.isMachine_or_spilled (h : Placement code pool allocated)
    (hpool : pool ≤ registers) (hget : (code.assign allocated)[index]? = some line)
    (hname : name ∈ line.referenced) :
    Register.IsMachine registers name ∨
      ∃ i ∈ allocated.filter Interval.isSpilled, i.contains index = true ∧ i.register = name := by
  rw [Code.getElem?_assign, Option.map_eq_some_iff] at hget
  obtain ⟨original, hget, rfl⟩ := hget
  rw [Line.referenced_mapRegisters, List.mem_map] at hname
  obtain ⟨register, hregister, rfl⟩ := hname
  obtain ⟨i, hi, rfl, hcontains, hlocation⟩ := h.exists_mem_allocated hget hregister
  rw [hlocation, Interval.location]
  cases h.placed i hi with
  | pinned hpinned hphysical _ =>
    rw [hphysical]
    exact .inl (.inl hpinned)
  | register _ number hnumber hphysical _ =>
    rw [hphysical]
    exact .inl (.inr ⟨number, by omega, rfl⟩)
  | slot _ number _ hphysical hslot =>
    rw [hphysical]
    refine .inr ⟨i, List.mem_filter.mpr ⟨hi, ?_⟩, hcontains, rfl⟩
    simp [Interval.isSpilled, hphysical, hslot]

namespace Code

theorem HasRoles.grow_renamedIn (h : code.HasRoles) (hpool : pool ≤ registers) {size : Int32}
    (hget : ((code.renamedIn pool).grow size)[index]? = some line) :
    line.Resolvable registers (code.spilledIn pool) index := by
  cases index with
  | zero =>
    rw [grow, List.getElem?_set, if_pos rfl] at hget
    split_ifs at hget
    cases hget
    exact ⟨fun hne => absurd rfl hne, fun name hname => by cases hname⟩
  | succ index =>
    rw [grow, List.getElem?_set_ne (by omega)] at hget
    refine ⟨?_, fun name => (placement_allocate code pool).isMachine_or_spilled hpool hget⟩
    rw [renamedIn, getElem?_assign, Option.map_eq_some_iff] at hget
    obtain ⟨original, hget, rfl⟩ := hget
    exact (h.of_getElem?_succ hget).mapRegisters _

/-- **The lines that a round comes to**: every name left in one is a register of the machine. -/
theorem HasRoles.isMachine_of_round (h : code.HasRoles) (hpool : pool ≤ registers)
    (hround : code.round registers pool = .ok groups) :
    ∀ group ∈ groups, ∀ name ∈ group.line.referenced, Register.IsMachine registers name := by
  intro group hgroup
  by_cases hspilled : code.spilledIn pool = []
  · rw [Code.round_of_spilledIn_eq_nil registers hspilled] at hround
    cases hround
    obtain ⟨line, hline, rfl⟩ := List.mem_map.mp hgroup
    obtain ⟨index, hget⟩ := List.mem_iff_getElem?.mp hline
    intro name hname
    rcases (placement_allocate code pool).isMachine_or_spilled hpool hget hname with
      hmachine | ⟨i, hi, _⟩
    · exact hmachine
    · change i ∈ code.spilledIn pool at hi
      rw [hspilled] at hi
      cases hi
  · obtain ⟨_, _, size, _, hlines⟩ := lines_of_spill hspilled hround
    obtain ⟨index, hget⟩ := List.mem_iff_getElem?.mp hgroup
    obtain ⟨line, hline, hspill⟩ := hlines index group hget
    exact Line.spill_resolves (fun t ht => (mem_reserved ht).2) (h.grow_renamedIn hpool hline)
      hspill

end Code

/-- **No other register survives.**  If every register of a stream is read or written where it is
named, a leading `ENTER` apart, then every register of the compiled stream, spill code included, is
pinned or one of the allocatable ones. -/
theorem compile_isMachine {options : Options} {out : Code} (hroles : code.HasRoles)
    (hok : (code.compile options).result = .ok out) :
    ∀ line ∈ out, ∀ name ∈ line.referenced, Register.IsMachine options.registers name := by
  obtain ⟨groups, hgroups, rfl⟩ := Code.exists_groups hok
  obtain ⟨pool, hpool, hround⟩ := Code.exists_round hgroups
  have haccess : ∀ group ∈ groups, ∀ a ∈ group.loads ++ group.stores,
      a.temporary < options.registers := fun group hgroup a ha =>
    (mem_reserved (Code.spill_reaches hround group hgroup a ha).1).2
  intro line hline name hname
  obtain ⟨group, hgroup, hline⟩ := List.mem_flatMap.mp hline
  rcases List.mem_append.mp hline with hline | hline
  · obtain ⟨a, ha, hline⟩ := List.mem_flatMap.mp hline
    exact isMachine_of_mem_slotAccess
      (haccess group hgroup a (List.mem_append_left _ ha)) hline hname
  · rcases List.mem_cons.mp hline with rfl | hline
    · exact hroles.isMachine_of_round hpool hround group hgroup name hname
    · obtain ⟨a, ha, hline⟩ := List.mem_flatMap.mp hline
      exact isMachine_of_mem_slotAccess
        (haccess group hgroup a (List.mem_append_right _ ha)) hline hname

/-- Registers that are called like those of the machine, three of them on a machine with two: all
are spilled, and each is replaced by a temporary that may have the name of another one. -/
theorem compile_isMachine_clashing :
    let code : Code := [.instr .enter [.register "r9"], .instr .li [.register "r1", .number 1],
      .instr .li [.register "r0", .number 2], .instr .li [.register "r7", .number 3],
      .instr .add [.register "r7", .register "r1", .register "r0"],
      .instr .add [.register "sp", .register "r7", .register "r1"]]
    code.HasRoles ∧ ∃ out, (code.compile ⟨2, true⟩).result = .ok out ∧
      ∀ line ∈ out, ∀ name ∈ line.referenced, Register.IsMachine 2 name := by
  intro code
  have hroles : code.HasRoles := by decide
  have hsome : ((code.compile ⟨2, true⟩).result.toOption).isSome := by decide +kernel
  cases hok : (code.compile ⟨2, true⟩).result with
  | error error =>
    rw [hok] at hsome
    cases hsome
  | ok out => exact ⟨hroles, out, rfl, compile_isMachine hroles hok⟩

end TurtleAlloc
