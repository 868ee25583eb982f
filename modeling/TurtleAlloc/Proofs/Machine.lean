import Mathlib
import TurtleAlloc.Proofs.Layout

/-!
# A machine that runs groups and their code

`Machine` leaves open what an instruction computes.  It fixes only what an instruction may depend
on and change: the values of its source registers, in their order, and an environment; the
environment and its destination register.  Spill code moves words between registers and the cells
of the frame, which no instruction of the program touches.  A distant slot is reached by way of the
return-address register, which then holds an address.

Groups and code run apart from each other.  A group says which slot each of its accesses is for, by
an offset of 32 bits.  Its code says this in 16 bits at most, and is run as it reads back.

* `Machine.IsWide`, `Machine.IsNarrow` — every offset has a cell of its own, or only its lowest 16
  bits count;
* `Machine.executeGroup` — the loads of a group, its line, its stores;
* `Machine.run`, `Machine.trace` — groups executed along any sequence of positions, and what each of
  them reads and leaves behind.  A stream without spill code runs as `code.map Group.ofLine`;
* `Machine.runCode` — the same for segments of code;
* `executeAt_mapRegisters` — a renamed line does the same as long as it reads the same values;
* `registers_loadAll`, `cells_store` and their companions — what loads and stores do;
* `runCode_segments` — a narrow machine does to the code of groups what it does to the groups;
* `simulates` — from a relation that every step keeps to whole runs.
-/

namespace TurtleAlloc

/-- An operand without its register: what an instruction sees of it apart from its value. -/
def Operand.immediate? : Operand → Option Operand
  | register _ => none
  | label name => some (label name)
  | number value => some (number value)

/-- A machine whose instructions are arbitrary functions. -/
structure Machine where
  Value : Type
  Environment : Type
  /-- What an instruction does, by its opcode, its operands without their registers, the values
  of its source registers and the environment. -/
  effect : Opcode → List (Option Operand) → List Value → Environment → Environment × Value
  /-- The cell at an offset from the frame pointer. -/
  cell : Int → Int
  /-- The address of a cell, by the frame pointer. -/
  address : Int → Value → Value

namespace Machine

/-- The environment, the registers by name, and the cells of the frame. -/
structure State (machine : Machine) where
  environment : machine.Environment
  registers : String → machine.Value
  cells : Int → machine.Value

/-- What a line reads, and the environment that it leaves. -/
structure Observation (machine : Machine) where
  read : List machine.Value
  environment : machine.Environment

variable (machine : Machine)

/-- Every offset has a cell of its own. -/
def IsWide : Prop := Function.Injective machine.cell

/-- Addresses have 16 bits, so offsets that differ by a multiple of `2 ^ 16` share their cell. -/
def IsNarrow : Prop := ∀ a b : Int, machine.cell a = machine.cell b ↔ a ≡ b [ZMOD 65536]

/-- The effect of a line on a state. -/
def outcome (line : Line) (state : machine.State) : Option (machine.Environment × machine.Value) :=
  line.opcode?.map fun opcode =>
    machine.effect opcode (line.operands.map Operand.immediate?)
      (line.sources.map state.registers) state.environment

/-- Execute a line.  A label declaration does nothing. -/
def executeLine (line : Line) (state : machine.State) : machine.State :=
  match machine.outcome line state with
  | none => state
  | some (environment, value) => { state with
      environment
      registers := fun name =>
        if name ∈ line.destinations then value else state.registers name }

/-- Execute the line at a position.  The `ENTER` at the front of a stream has no effect. -/
def executeAt (index : Nat) (line : Line) (state : machine.State) : machine.State :=
  if index = 0 ∧ line.opcode? = some .enter then state else machine.executeLine line state

/-- Put the address of the cell at an offset into the return-address register. -/
def aim (offset : Int) (state : machine.State) : machine.State :=
  { state with
    registers := Function.update state.registers Register.returnAddress
      (machine.address (machine.cell offset) (state.registers Register.framePointer)) }

/-- Bring the cell at an offset into a register. -/
def fetch (name : String) (offset : Int) (state : machine.State) : machine.State :=
  { state with
    registers := Function.update state.registers name (state.cells (machine.cell offset)) }

/-- Write a register to the cell at an offset. -/
def keep (name : String) (offset : Int) (state : machine.State) : machine.State :=
  { state with
    cells := Function.update state.cells (machine.cell offset) (state.registers name) }

/-- Prepare to access a slot: a distant one needs its address in the return-address register. -/
def reach (access : Access) (state : machine.State) : machine.State :=
  if isNear access.offset then state else machine.aim access.offset.toInt state

/-- Load a slot into a temporary. -/
def load (state : machine.State) (access : Access) : machine.State :=
  machine.fetch access.temporaryName access.offset.toInt (machine.reach access state)

/-- Store a temporary into a slot. -/
def store (state : machine.State) (access : Access) : machine.State :=
  machine.keep access.temporaryName access.offset.toInt (machine.reach access state)

/-- The state in which the line of a group is executed. -/
def loadAll (loads : List Access) (state : machine.State) : machine.State :=
  loads.foldl machine.load state

/-- Execute a group: its loads, its line, its stores. -/
def executeGroup (index : Nat) (group : Group) (state : machine.State) : machine.State :=
  group.stores.foldl machine.store
    (machine.executeAt index group.line (machine.loadAll group.loads state))

/-- What can be seen of the execution of a group. -/
def observe (index : Nat) (group : Group) (state : machine.State) : machine.Observation where
  read := group.line.sources.map (machine.loadAll group.loads state).registers
  environment := (machine.executeGroup index group state).environment

/-- Execute the group at a position, if there is one. -/
def step (groups : List Group) (state : machine.State) (index : Nat) : machine.State :=
  match groups[index]? with
  | some group => machine.executeGroup index group state
  | none => state

/-- Execute the groups at some positions, one after the other. -/
def run (groups : List Group) (path : List Nat) (state : machine.State) : machine.State :=
  path.foldl (machine.step groups) state

/-- What can be seen of such a run, position by position. -/
def trace (groups : List Group) : List Nat → machine.State → List machine.Observation
  | [], _ => []
  | index :: path, state =>
    (groups[index]?.map fun group => machine.observe index group state).toList ++
      trace groups path (machine.step groups state index)

/-- Execute the code of one movement.  In its long form it goes by way of the return-address
register. -/
def executeMove (state : machine.State) (code : Code) : Option machine.State := do
  let move ← code.move?
  let state := if code.length = 1 then state else machine.aim move.offset state
  match move.opcode with
  | .load => some (machine.fetch move.register move.offset state)
  | .store => some (machine.keep move.register move.offset state)
  | _ => none

/-- Execute a segment of code, and say what can be seen of that. -/
def executeSegment (index : Nat) (segment : Segment) (state : machine.State) :
    Option (machine.Observation × machine.State) := do
  let loaded ← segment.loads.foldlM machine.executeMove state
  let final ← segment.stores.foldlM machine.executeMove
    (machine.executeAt index segment.line loaded)
  pure (⟨segment.line.sources.map loaded.registers, final.environment⟩, final)

/-- Execute the segments at some positions, one after the other. -/
def runCode (segments : List Segment) :
    List Nat → machine.State → Option (List machine.Observation × machine.State)
  | [], state => some ([], state)
  | index :: path, state =>
    match segments[index]? with
    | none => runCode segments path state
    | some segment => do
      let (observation, next) ← machine.executeSegment index segment state
      let (observations, final) ← runCode segments path next
      pure (observation :: observations, final)

variable {machine}

/-! ## Lines -/

theorem immediate?_mapRegister (f : String → String) (operand : Operand) :
    (operand.mapRegister f).immediate? = operand.immediate? := by
  cases operand <;> rfl

theorem outcome_mapRegisters (f : String → String) (line : Line) {source target : machine.State}
    (henvironment : source.environment = target.environment)
    (hread : ∀ name ∈ line.sources, source.registers name = target.registers (f name)) :
    machine.outcome (line.mapRegisters f) target = machine.outcome line source := by
  have hvalues : (line.mapRegisters f).sources.map target.registers =
      line.sources.map source.registers := by
    rw [Line.sources_mapRegisters, List.map_map]
    exact List.map_congr_left fun name hname => (hread name hname).symm
  unfold outcome
  rw [hvalues, henvironment]
  cases line with
  | label name => rfl
  | instr opcode operands =>
    have hoperands : (operands.map (Operand.mapRegister f)).map Operand.immediate? =
        operands.map Operand.immediate? := by
      rw [List.map_map]
      exact List.map_congr_left fun operand _ => immediate?_mapRegister f operand
    show some (machine.effect opcode _ _ _) = some (machine.effect opcode _ _ _)
    rw [show (Line.mapRegisters f (.instr opcode operands)).operands =
      operands.map (Operand.mapRegister f) from rfl, hoperands]
    rfl

theorem executeLine_of_outcome {line : Line} {state : machine.State}
    {environment : machine.Environment} {value : machine.Value}
    (h : machine.outcome line state = some (environment, value)) :
    machine.executeLine line state = ⟨environment, fun name =>
      if name ∈ line.destinations then value else state.registers name, state.cells⟩ := by
  rw [executeLine, h]

/-- **A renamed line does the same to the renamed registers**, provided that it reads the same
values. -/
theorem executeAt_mapRegisters (index : Nat) (f : String → String) (line : Line)
    {source target : machine.State} (henvironment : source.environment = target.environment)
    (hread : ∀ name ∈ line.sources, source.registers name = target.registers (f name)) :
    ∃ environment value,
      machine.executeAt index line source = ⟨environment, fun name =>
        if name ∈ line.destinations then value else source.registers name, source.cells⟩ ∧
      machine.executeAt index (line.mapRegisters f) target = ⟨environment, fun name =>
        if name ∈ line.destinations.map f then value else target.registers name,
          target.cells⟩ := by
  -- neither a label declaration nor the leading `ENTER` writes a register
  have hidle : line.destinations = [] → ∃ value,
      source = ⟨target.environment, fun name =>
        if name ∈ line.destinations then value else source.registers name, source.cells⟩ ∧
      target = ⟨target.environment, fun name =>
        if name ∈ line.destinations.map f then value else target.registers name,
          target.cells⟩ := by
    intro hnil
    refine ⟨source.registers "", ?_, ?_⟩
    · rw [← henvironment, hnil]
      simp
    · rw [hnil]
      simp
  unfold executeAt
  rw [Line.opcode?_mapRegisters]
  split_ifs with henter
  · exact ⟨target.environment, hidle (Line.roles_of_enter henter.2).2⟩
  · have houtcome := outcome_mapRegisters f line henvironment hread
    cases hresult : machine.outcome line source with
    | some result =>
      refine ⟨result.1, result.2, executeLine_of_outcome hresult, ?_⟩
      rw [executeLine_of_outcome (houtcome.trans hresult), Line.destinations_mapRegisters]
    | none =>
      have hnil : line.destinations = [] := by
        cases line with
        | label name => rfl
        | instr opcode operands => cases hresult
      unfold executeLine
      rw [houtcome, hresult]
      exact ⟨target.environment, hidle hnil⟩

/-! ## Loads and stores -/

@[simp] theorem environment_reach (access : Access) (state : machine.State) :
    (machine.reach access state).environment = state.environment := by
  unfold reach
  split <;> rfl

@[simp] theorem cells_reach (access : Access) (state : machine.State) :
    (machine.reach access state).cells = state.cells := by
  unfold reach
  split <;> rfl

/-- Reaching a slot changes the return-address register only, and this only for a distant slot. -/
theorem registers_reach {access : Access} {state : machine.State} {name : String}
    (h : name = Register.returnAddress → isNear access.offset = true) :
    (machine.reach access state).registers name = state.registers name := by
  unfold reach
  split
  · rfl
  · rename_i hfar
    exact Function.update_of_ne (fun heq => hfar (h heq)) ..

theorem temporaryName_ne_returnAddress (access : Access) :
    access.temporaryName ≠ Register.returnAddress :=
  Register.physical_ne_of_isPinned access.temporary (by decide)

@[simp] theorem environment_loadAll (loads : List Access) (state : machine.State) :
    (machine.loadAll loads state).environment = state.environment := by
  induction loads generalizing state with
  | nil => rfl
  | cons access loads ih =>
    show (machine.loadAll loads (machine.load state access)).environment = _
    rw [ih]
    exact environment_reach access state

@[simp] theorem cells_loadAll (loads : List Access) (state : machine.State) :
    (machine.loadAll loads state).cells = state.cells := by
  induction loads generalizing state with
  | nil => rfl
  | cons access loads ih =>
    show (machine.loadAll loads (machine.load state access)).cells = _
    rw [ih]
    exact cells_reach access state

/-- Loads keep every register that is none of their temporaries; distant ones use the
return-address register. -/
theorem registers_loadAll_of_ne {loads : List Access} {state : machine.State} {name : String}
    (hname : ∀ a ∈ loads, a.temporaryName ≠ name)
    (hnear : name = Register.returnAddress → ∀ a ∈ loads, isNear a.offset = true) :
    (machine.loadAll loads state).registers name = state.registers name := by
  induction loads generalizing state with
  | nil => rfl
  | cons access loads ih =>
    show (machine.loadAll loads (machine.load state access)).registers name = _
    rw [ih (fun a ha => hname a (List.mem_cons_of_mem _ ha))
      (fun h a ha => hnear h a (List.mem_cons_of_mem _ ha))]
    have hne : name ≠ access.temporaryName := (hname access List.mem_cons_self).symm
    exact (Function.update_of_ne hne ..).trans
      (registers_reach fun h => hnear h access List.mem_cons_self)

/-- Loads into different temporaries bring every slot into its temporary. -/
theorem registers_loadAll {loads : List Access} {state : machine.State}
    (hnodup : (loads.map Access.temporary).Nodup) {access : Access} (hmem : access ∈ loads) :
    (machine.loadAll loads state).registers access.temporaryName =
      state.cells (machine.cell access.offset.toInt) := by
  induction loads generalizing state with
  | nil => cases hmem
  | cons first loads ih =>
    rw [List.map_cons, List.nodup_cons] at hnodup
    show (machine.loadAll loads (machine.load state first)).registers _ = _
    rcases List.mem_cons.mp hmem with rfl | hmem
    · have hlater : ∀ a ∈ loads, a.temporaryName ≠ access.temporaryName := by
        intro a ha heq
        have hsame : a.temporary = access.temporary := Register.physical_inj.mp heq
        exact hnodup.1 (hsame ▸ List.mem_map_of_mem ha)
      rw [registers_loadAll_of_ne hlater
        fun h => absurd h (temporaryName_ne_returnAddress access)]
      show Function.update _ _ _ _ = _
      rw [Function.update_self, cells_reach]
    · rw [ih hnodup.2 hmem]
      exact congrFun (cells_reach first state) _

@[simp] theorem environment_store (state : machine.State) (access : Access) :
    (machine.store state access).environment = state.environment :=
  environment_reach access state

theorem registers_store {state : machine.State} {access : Access} {name : String}
    (h : name = Register.returnAddress → isNear access.offset = true) :
    (machine.store state access).registers name = state.registers name :=
  registers_reach h

@[simp] theorem cells_store (state : machine.State) (access : Access) :
    (machine.store state access).cells = Function.update state.cells
      (machine.cell access.offset.toInt) (state.registers access.temporaryName) := by
  show Function.update _ _ _ = _
  rw [cells_reach, registers_reach fun h => absurd h (temporaryName_ne_returnAddress access)]

/-! ## Code -/

theorem foldlM_executeMove {code : Access → Code} {move : machine.State → Access → machine.State}
    (h : ∀ access state, machine.executeMove state (code access) = some (move state access))
    (accesses : List Access) (state : machine.State) :
    (accesses.map code).foldlM machine.executeMove state = some (accesses.foldl move state) := by
  rw [List.foldlM_map]
  simp only [h]
  exact List.foldlM_pure

section Code

variable (hnarrow : machine.IsNarrow)

include hnarrow

/-- A narrow machine finds a slot by the offset that its code spells. -/
theorem IsNarrow.cell_bmod (offset : Int) :
    machine.cell (offset.bmod 65536) = machine.cell offset :=
  (hnarrow _ _).mpr Int.bmod_emod

theorem IsNarrow.reach_eq (access : Access) (opcode : Opcode) (state : machine.State) :
    (if (slotAccess opcode access.temporaryName access.offset).length = 1 then state
      else machine.aim (access.offset.toInt.bmod 65536) state) = machine.reach access state := by
  unfold reach
  by_cases hnear : isNear access.offset = true
  · rw [if_pos hnear, if_pos (length_slotAccess_eq_one_iff.mpr hnear)]
  · rw [if_neg hnear, if_neg fun hlength => hnear (length_slotAccess_eq_one_iff.mp hlength), aim,
      aim, hnarrow.cell_bmod]

theorem executeMove_load (access : Access) (state : machine.State) :
    machine.executeMove state access.load = some (machine.load state access) := by
  unfold executeMove Access.load
  rw [move?_slotAccess, Option.bind_eq_bind, Option.bind_some]
  simp only [hnarrow.reach_eq]
  rw [load, fetch, fetch, hnarrow.cell_bmod]

theorem executeMove_store (access : Access) (state : machine.State) :
    machine.executeMove state access.store = some (machine.store state access) := by
  unfold executeMove Access.store
  rw [move?_slotAccess, Option.bind_eq_bind, Option.bind_some]
  simp only [hnarrow.reach_eq]
  rw [store, keep, keep, hnarrow.cell_bmod]

/-- **The code of a group does what the group does.** -/
theorem executeSegment_segment (index : Nat) (group : Group) (state : machine.State) :
    machine.executeSegment index group.segment state =
      some (machine.observe index group state, machine.executeGroup index group state) := by
  unfold executeSegment Group.segment
  rw [foldlM_executeMove (executeMove_load hnarrow), Option.bind_eq_bind, Option.bind_some,
    foldlM_executeMove (executeMove_store hnarrow)]
  rfl

/-- **The code of groups runs as the groups do**, on a machine whose addresses have 16 bits. -/
theorem runCode_segments (groups : List Group) (path : List Nat) (state : machine.State) :
    machine.runCode (groups.map Group.segment) path state =
      some (machine.trace groups path state, machine.run groups path state) := by
  induction path generalizing state with
  | nil => rfl
  | cons index path ih =>
    rw [runCode, List.getElem?_map, trace, run, List.foldl_cons, step]
    cases groups[index]? with
    | none => exact ih state
    | some group =>
      simp only [Option.map_some, executeSegment_segment hnarrow, ih]
      rfl

end Code

/-! ## Runs -/

@[simp] theorem executeGroup_ofLine (index : Nat) (line : Line) (state : machine.State) :
    machine.executeGroup index (.ofLine line) state = machine.executeAt index line state := rfl

/-- **Simulation along a path.**  A relation between states, which may depend on the positions that
are still to come, is kept by a run if each step keeps it; both runs then show the same. -/
theorem simulates (before after : List Group)
    (related : List Nat → machine.State → machine.State → Prop)
    (hlength : after.length = before.length)
    (hstep : ∀ index path source target group group', before[index]? = some group →
      after[index]? = some group' → related (index :: path) source target →
      related path (machine.executeGroup index group source)
        (machine.executeGroup index group' target) ∧
      machine.observe index group source = machine.observe index group' target)
    (hskip : ∀ index path source target, related (index :: path) source target →
      before[index]? = none → related path source target)
    (path : List Nat) {source target : machine.State} (h : related path source target) :
    related [] (machine.run before path source) (machine.run after path target) ∧
      machine.trace before path source = machine.trace after path target := by
  induction path generalizing source target with
  | nil => exact ⟨h, rfl⟩
  | cons index path ih =>
    simp only [run, trace, List.foldl_cons, step]
    cases hbefore : before[index]? with
    | none =>
      have hafter : after[index]? = none := by
        rw [List.getElem?_eq_none_iff] at hbefore ⊢
        omega
      rw [hafter]
      exact ih (hskip index path source target h hbefore)
    | some group =>
      have hlt : index < after.length := hlength ▸ (List.getElem?_eq_some_iff.mp hbefore).1
      have hafter : after[index]? = some after[index] := List.getElem?_eq_getElem hlt
      obtain ⟨hnext, hobserve⟩ := hstep index path source target group _ hbefore hafter h
      obtain ⟨hlast, htrace⟩ := ih hnext
      rw [hafter]
      refine ⟨hlast, ?_⟩
      simp only [Option.map_some, Option.toList_some, List.singleton_append, hobserve]
      exact congrArg _ htrace

end Machine

end TurtleAlloc
