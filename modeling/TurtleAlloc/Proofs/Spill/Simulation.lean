import Mathlib
import TurtleAlloc.Proofs.Frame
import TurtleAlloc.Proofs.Liveness
import TurtleAlloc.Proofs.Machine
import TurtleAlloc.Proofs.Spill.Groups

/-!
# Spill code keeps the meaning of a stream

* `SpillPlan` — what a caller of `Code.spill` provides: spilled registers and slots that are told
  apart, temporaries that the stream does not use, intervals that cover the occurrences.
* `Mirrors` — two states agree up to spill code: the cell of a spilled register holds its value in
  the one, and all registers that spill code does not use for itself are the same.
* `Machine.Separates` — spilled registers share no cell; `SlotsApart` says when 16 bits are enough
  for that.
* `Mirrors.executeGroup` — a line and its group lead from such states to such states.
* `spill_simulates` — so do a stream and its groups, and the code of the groups, along every
  sequence of positions.
-/

namespace TurtleAlloc

/-- What spilling relies on. -/
structure SpillPlan (code : Code) (spilled : List Interval) (temporaries : List Nat) : Prop
    extends Spillable spilled temporaries where
  slot : ∀ i ∈ spilled, ∃ slot < 2 ^ 31, i.slot = some slot
  slot_nodup : (spilled.map Interval.slot).Nodup
  temporaries_nodup : temporaries.Nodup
  temporary_fresh : ∀ t ∈ temporaries, Register.physical t ∉ code.names
  covers : ∀ i ∈ spilled, ∀ (index : Nat) (line : Line), code[index]? = some line →
    i.register ∈ line.sources ∨ i.register ∈ line.destinations → i.contains index = true

/-- Some spill code uses the return-address register. -/
def HasDistant (groups : List Group) : Prop :=
  ∃ group ∈ groups, ∃ access ∈ group.loads ++ group.stores, isNear access.offset = false

instance (groups : List Group) : Decidable (HasDistant groups) :=
  inferInstanceAs (Decidable (∃ group ∈ groups, ∃ access ∈ group.loads ++ group.stores, _))

/-- The registers that spill code uses for itself. -/
def Hidden (spilled : List Interval) (temporaries : List Nat) (groups : List Group)
    (name : String) : Prop :=
  name ∈ spilled.map Interval.register ∨ name ∈ temporaries.map Register.physical ∨
    name = Register.returnAddress ∧ HasDistant groups

/-- The states of a stream and of its groups agree. -/
structure Mirrors {machine : Machine} (frame : Frame) (spilled : List Interval)
    (hidden : String → Prop) (source target : machine.State) : Prop where
  environment : source.environment = target.environment
  registers : ∀ name, ¬ hidden name → source.registers name = target.registers name
  cells : ∀ i ∈ spilled, ∀ slot offset, i.slot = some slot → frame.slotOffset? slot = some offset →
    source.registers i.register = target.cells (machine.cell offset.toInt)

theorem Line.destinations_cases (line : Line) :
    line.destinations = [] ∨ ∃ name, line.destinations = [name] := by
  cases line with
  | label _ => exact .inl rfl
  | instr opcode operands =>
    simp only [destinations]
    split_ifs
    · rcases operands with _ | ⟨operand, rest⟩
      · exact .inl rfl
      · cases operand with
        | register name => exact .inr ⟨name, rfl⟩
        | label name => exact .inl rfl
        | number value => exact .inl rfl
    · exact .inl rfl

variable {code : Code} {spilled : List Interval} {temporaries : List Nat} {groups : List Group}
  {frame : Frame} {index : Nat} {line : Line} {unused : List Nat} {group : Group}

/-! ## The accesses of one group -/

namespace Group.Spills

/-- A group stores at most one register, the one that its line writes. -/
theorem stores_cases (h : group.Spills frame temporaries (spilled.filter fun i => i.contains index)
      line unused) (hregisters : (spilled.map Interval.register).Nodup)
    (hcovers : ∀ i ∈ spilled, i.register ∈ line.destinations → i.contains index = true) :
    (group.stores = [] ∧ ∀ i ∈ spilled, i.register ∉ line.destinations) ∨
    ∃ a, group.stores = [a] ∧ line.destinations = [a.register] := by
  have hstored : ∀ name, name ∈ group.stores.map Access.register ↔
      name ∈ spilled.map Interval.register ∧ name ∈ line.destinations := by
    intro name
    rw [← List.mem_reverse, h.stores, List.mem_filter, decide_eq_true_iff]
    refine and_congr_left fun hwrites => ?_
    constructor
    · exact fun hmem => (List.filter_sublist.map _).subset hmem
    · intro hmem
      obtain ⟨i, hi, rfl⟩ := List.mem_map.mp hmem
      exact List.mem_map_of_mem (List.mem_filter.mpr ⟨hi, hcovers i hi hwrites⟩)
  have hnodup : (group.stores.map Access.register).Nodup := by
    rw [← List.nodup_reverse, h.stores]
    exact ((List.filter_sublist.map _).nodup hregisters).filter _
  rcases hcase : group.stores with _ | ⟨a, others⟩
  · left
    refine ⟨rfl, fun i hi hwrites => ?_⟩
    have hmem := (hstored i.register).mpr ⟨List.mem_map_of_mem hi, hwrites⟩
    rw [hcase] at hmem
    cases hmem
  · right
    rw [hcase] at hstored hnodup
    have hwrites := ((hstored a.register).mp List.mem_cons_self).2
    rcases line.destinations_cases with hnil | ⟨name, hname⟩
    · rw [hnil] at hwrites
      cases hwrites
    · rw [hname, List.mem_singleton] at hwrites
      refine ⟨a, ?_, by rw [hname, hwrites]⟩
      rcases others with _ | ⟨b, others⟩
      · rfl
      · -- a second store would be of the same register
        have hb := ((hstored b.register).mp (by simp)).2
        rw [hname, List.mem_singleton, ← hwrites] at hb
        simp [hb] at hnodup

theorem standIn_eq_self_of_not_spilled {treated : List Interval}
    (h : group.Spills frame temporaries treated line unused) (hsub : treated ⊆ spilled)
    {name : String} (hname : name ∉ spilled.map Interval.register) :
    Access.standIn (group.loads ++ group.stores) name = name := by
  refine Access.standIn_eq_self fun a ha heq => hname ?_
  obtain ⟨i, hi, hregister, _⟩ := h.reaches a ha
  exact List.mem_map.mpr ⟨i, hsub hi, hregister.trans heq⟩

end Group.Spills

/-! ## Cells -/

/-- The slots of different intervals have different cells. -/
def Machine.Separates (machine : Machine) (frame : Frame) (spilled : List Interval) : Prop :=
  ∀ i ∈ spilled, ∀ j ∈ spilled, ∀ slot other offset offset', i.slot = some slot →
    j.slot = some other → frame.slotOffset? slot = some offset →
    frame.slotOffset? other = some offset' →
    machine.cell offset.toInt = machine.cell offset'.toInt → i = j

/-- The slots of different intervals differ in their lowest 16 bits. -/
def SlotsApart (spilled : List Interval) : Prop :=
  ∀ i ∈ spilled, ∀ j ∈ spilled, ∀ slot other, i.slot = some slot → j.slot = some other →
    slot ≡ other [MOD 65536] → i = j

theorem Interval.slot_lt {interval : Interval} {slot bound : Nat}
    (h : ∃ slot < bound, interval.slot = some slot) (hslot : interval.slot = some slot) :
    slot < bound := by
  obtain ⟨_, hlt, hslot'⟩ := h
  cases hslot.symm.trans hslot'
  exact hlt

section Cells

variable {machine : Machine} (hslots : ∀ i ∈ spilled, ∃ slot < 2 ^ 31, i.slot = some slot)

include hslots

theorem eq_of_slotOffset? (hnodup : (spilled.map Interval.slot).Nodup) {i j : Interval}
    (hi : i ∈ spilled) (hj : j ∈ spilled) {slot other : Nat} {offset : Int32}
    (hslot : i.slot = some slot) (hother : j.slot = some other)
    (hoffset : frame.slotOffset? slot = some offset)
    (hoffset' : frame.slotOffset? other = some offset) : i = j := by
  have heq : slot = other := Frame.slotOffset?_inj (Interval.slot_lt (hslots i hi) hslot)
    (Interval.slot_lt (hslots j hj) hother) hoffset hoffset'
  exact List.inj_on_of_nodup_map hnodup hi hj (by rw [hslot, hother, heq])

theorem Machine.IsWide.separates (hwide : machine.IsWide)
    (hnodup : (spilled.map Interval.slot).Nodup) (frame : Frame) :
    machine.Separates frame spilled := by
  intro i hi j hj slot other offset offset' hslot hother hoffset hoffset' hcell
  cases Int32.toInt_inj.mp (hwide hcell)
  exact eq_of_slotOffset? hslots hnodup hi hj hslot hother hoffset hoffset'

theorem Machine.IsNarrow.separates (hnarrow : machine.IsNarrow) (hapart : SlotsApart spilled)
    (frame : Frame) : machine.Separates frame spilled := by
  intro i hi j hj slot other offset offset' hslot hother hoffset hoffset' hcell
  have hlt := Interval.slot_lt (hslots i hi) hslot
  have hlt' := Interval.slot_lt (hslots j hj) hother
  refine hapart i hi j hj slot other hslot hother ?_
  rw [hnarrow, Frame.toInt_slotOffset? hlt hoffset, Frame.toInt_slotOffset? hlt' hoffset',
    Int.ModEq] at hcell
  rw [Nat.ModEq]
  omega

end Cells

/-! ## One group -/

section Group

variable {machine : Machine} {source target : machine.State} {name : String}

theorem not_hidden_of_mem_names (hplan : SpillPlan code spilled temporaries)
    (hreturn : Register.returnAddress ∈ code.names → ¬ HasDistant groups)
    (hname : name ∈ code.names) (hspilled : name ∉ spilled.map Interval.register) :
    ¬ Hidden spilled temporaries groups name := by
  rintro (h | h | ⟨rfl, hdistant⟩)
  · exact hspilled h
  · obtain ⟨t, ht, rfl⟩ := List.mem_map.mp h
    exact hplan.temporary_fresh t ht hname
  · exact hreturn hname hdistant

theorem isNear_of_not_hidden (hmem : group ∈ groups)
    (hname : ¬ Hidden spilled temporaries groups name) (h : name = Register.returnAddress) :
    ∀ a ∈ group.loads ++ group.stores, isNear a.offset = true := by
  intro a ha
  by_contra hfar
  exact hname (.inr (.inr ⟨h, group, hmem, a, ha, by simpa using hfar⟩))

variable (hmem : group ∈ groups)
  (hspills : group.Spills frame temporaries (spilled.filter fun i => i.contains index) line unused)

include hspills

theorem temporaryName_ne_of_not_hidden (hname : ¬ Hidden spilled temporaries groups name) :
    ∀ a ∈ group.loads ++ group.stores, a.temporaryName ≠ name := by
  intro a ha heq
  exact hname (.inr (.inl (heq ▸ List.mem_map_of_mem (hspills.temporary_mem a ha))))

include hmem

theorem registers_loadAll_of_not_hidden (hname : ¬ Hidden spilled temporaries groups name) :
    (machine.loadAll group.loads target).registers name = target.registers name :=
  Machine.registers_loadAll_of_ne
    (fun a ha => temporaryName_ne_of_not_hidden hspills hname a (List.mem_append_left _ ha))
    (fun h a ha => isNear_of_not_hidden hmem hname h a (List.mem_append_left _ ha))

variable (hplan : SpillPlan code spilled temporaries)
  (hreturn : Register.returnAddress ∈ code.names → ¬ HasDistant groups)
  (hget : code[index]? = some line)
  (h : Mirrors frame spilled (Hidden spilled temporaries groups) source target)

include hplan hreturn hget h

/-- Behind the loads, every source register of the line is found under its stand-in. -/
theorem Mirrors.read (hname : name ∈ line.sources) :
    source.registers name = (machine.loadAll group.loads target).registers
      (Access.standIn (group.loads ++ group.stores) name) := by
  by_cases hspilled : name ∈ spilled.map Interval.register
  · obtain ⟨i, hi, rfl⟩ := List.mem_map.mp hspilled
    have hloaded : i.register ∈ group.loads.map Access.register := by
      rw [hspills.loads, List.mem_filter]
      have hcontains := hplan.covers i hi index line hget (.inl hname)
      exact ⟨List.mem_map_of_mem (List.mem_filter.mpr ⟨hi, hcontains⟩), by simpa using hname⟩
    obtain ⟨a, ha, hregister⟩ := List.mem_map.mp hloaded
    have haccess : a ∈ group.loads ++ group.stores := List.mem_append_left _ ha
    obtain ⟨j, hj, hj_register, hslot, hoffset⟩ := hspills.reaches a haccess
    have hnodup : (group.loads.map Access.temporary).Nodup := by
      have htemporaries := hplan.temporaries_nodup
      rw [← hspills.temporaries_eq] at htemporaries
      exact (List.nodup_append.mp htemporaries).1
    rw [← hregister, hspills.standIn_eq a haccess, Machine.registers_loadAll hnodup ha,
      ← hj_register]
    exact h.cells j (List.mem_filter.mp hj).1 a.slot a.offset hslot hoffset
  · have hnames : name ∈ code.names :=
      Code.mem_names.mpr ⟨index, line, hget, Line.mem_referenced_of_mem_sources hname⟩
    have hvisible := not_hidden_of_mem_names hplan hreturn hnames hspilled
    rw [hspills.standIn_eq_self_of_not_spilled (List.filter_subset_self _) hspilled,
      registers_loadAll_of_not_hidden hmem hspills hvisible]
    exact h.registers name hvisible

variable (hcells : machine.Separates frame spilled)

include hcells

/-- **A line and its group lead from states that agree to states that agree.** -/
theorem Mirrors.executeGroup :
    Mirrors frame spilled (Hidden spilled temporaries groups) (machine.executeAt index line source)
      (machine.executeGroup index group target) := by
  set loaded := machine.loadAll group.loads target with hloaded
  obtain ⟨environment, value, hsource, hmiddle⟩ := Machine.executeAt_mapRegisters index
    (Access.standIn (group.loads ++ group.stores)) line
    (h.environment.trans (Machine.environment_loadAll group.loads target).symm)
    (fun name hname => h.read hmem hspills hplan hreturn hget hname)
  have hvisible : ∀ name, ¬ Hidden spilled temporaries groups name →
      loaded.registers name = source.registers name := fun name hname =>
    (registers_loadAll_of_not_hidden hmem hspills hname).trans (h.registers name hname).symm
  have hkept : loaded.cells = target.cells := Machine.cells_loadAll group.loads target
  rw [hsource, Machine.executeGroup, hspills.line_eq, hmiddle]
  rcases hspills.stores_cases hplan.nodup
    (fun i hi hwrites => hplan.covers i hi index line hget (.inr hwrites)) with
    ⟨hstores, hwrites⟩ | ⟨a, hstores, hwrites⟩
  · -- nothing is stored: the line writes no spilled register
    have hsame : line.destinations.map (Access.standIn (group.loads ++ group.stores)) =
        line.destinations := by
      refine (List.map_congr_left fun name hname => ?_).trans (List.map_id _)
      refine hspills.standIn_eq_self_of_not_spilled (List.filter_subset_self _) fun hspilled => ?_
      obtain ⟨i, hi, rfl⟩ := List.mem_map.mp hspilled
      exact hwrites i hi hname
    rw [hsame, hstores]
    refine ⟨rfl, ?_, ?_⟩
    · intro name hname
      show (if _ then _ else _) = if _ then _ else _
      rw [hvisible name hname]
    · intro i hi slot offset hslot hoffset
      show (if _ then _ else _) = loaded.cells _
      rw [if_neg (hwrites i hi), hkept]
      exact h.cells i hi slot offset hslot hoffset
  · -- the line writes one spilled register, whose stand-in is stored
    have haccess : a ∈ group.loads ++ group.stores := by simp [hstores]
    obtain ⟨j, hj, hj_register, hj_slot, hj_offset⟩ := hspills.reaches a haccess
    have hj_mem := (List.mem_filter.mp hj).1
    rw [hwrites, List.map_singleton, hspills.standIn_eq a haccess, hstores, List.foldl_cons,
      List.foldl_nil]
    refine ⟨by rw [Machine.environment_store], ?_, ?_⟩
    · intro name hname
      have hregister : name ≠ a.register := by
        rintro rfl
        exact hname (.inl (hj_register ▸ List.mem_map_of_mem hj_mem))
      have htemporary := (temporaryName_ne_of_not_hidden hspills hname a haccess).symm
      rw [Machine.registers_store fun heq => isNear_of_not_hidden hmem hname heq a haccess]
      simp only [List.mem_singleton, hregister, htemporary, if_false]
      exact (hvisible name hname).symm
    · intro i hi slot offset hslot hoffset
      rw [Machine.cells_store]
      simp only [List.mem_singleton, if_true]
      by_cases hi_register : i.register = a.register
      · have hij : i = j :=
          List.inj_on_of_nodup_map hplan.nodup hi hj_mem (hi_register.trans hj_register.symm)
        subst hij
        rw [hj_slot] at hslot
        cases hslot
        rw [hj_offset] at hoffset
        cases hoffset
        rw [if_pos hi_register, Function.update_self]
      · have hne : machine.cell offset.toInt ≠ machine.cell a.offset.toInt := by
          intro heq
          cases hcells i hi j hj_mem slot a.slot offset a.offset hslot hj_slot hoffset hj_offset heq
          exact hi_register hj_register
        rw [if_neg hi_register, Function.update_of_ne hne, hkept]
        exact h.cells i hi slot offset hslot hoffset

theorem Mirrors.observe :
    machine.observe index (.ofLine line) source = machine.observe index group target := by
  have hread : line.sources.map source.registers =
      group.line.sources.map (machine.loadAll group.loads target).registers := by
    rw [hspills.line_eq, Line.sources_mapRegisters, List.map_map]
    exact List.map_congr_left fun name hname => h.read hmem hspills hplan hreturn hget hname
  have henvironment := (h.executeGroup hmem hspills hplan hreturn hget hcells).environment
  unfold Machine.observe
  congr 1

end Group

/-! ## Streams -/

/-- What stands for a line in a spilled stream: the leading `ENTER` with its new size, or a group
with the spill code of the registers whose intervals contain the line. -/
def Group.Renders (frame : Frame) (temporaries : List Nat) (spilled : List Interval) (index : Nat)
    (line : Line) (group : Group) : Prop :=
  (index = 0 ∧ line.opcode? = some .enter ∧
    ∃ size, group = .ofLine (.instr .enter [.number size])) ∨
    ∃ unused, group.Spills frame temporaries (spilled.filter fun i => i.contains index) line unused

theorem Group.Spills.eq_ofLine_enter {treated : List Interval} {size : Int32}
    (h : group.Spills frame temporaries treated (.instr .enter [.number size]) unused) :
    group = .ofLine (.instr .enter [.number size]) := by
  have hloads : group.loads = [] := by
    have hregisters := h.loads
    rw [show Line.sources (.instr .enter [.number size]) = [] from rfl] at hregisters
    simpa using hregisters
  have hstores : group.stores = [] := by
    have hregisters := h.stores
    rw [show Line.destinations (.instr .enter [.number size]) = [] from rfl] at hregisters
    simpa using hregisters
  have hline := h.line_eq
  obtain ⟨loads, line, stores⟩ := group
  cases hloads
  cases hstores
  exact congrArg (Group.mk [] · []) hline

theorem Code.spill_renders (hspillable : Spillable spilled temporaries)
    (h : (code.spill spilled temporaries).result = .ok groups) :
    groups.length = code.length ∧
      ∀ (index : Nat) (line : Line), code[index]? = some line →
        ∃ group, groups[index]? = some group ∧
          group.Renders code.frame temporaries spilled index line := by
  by_cases hspilled : spilled = []
  · subst hspilled
    cases h
    refine ⟨List.length_map .., fun index line hget => ?_⟩
    refine ⟨.ofLine line, by rw [List.getElem?_map, hget, Option.map_some], .inr ?_⟩
    exact ⟨temporaries, Group.Spills.ofLine code.frame temporaries line⟩
  · obtain ⟨henter, size, _, hlength, hgroups⟩ := Code.spill_ok hspilled hspillable h
    refine ⟨hlength, fun index line hget => ?_⟩
    cases index with
    | zero =>
      obtain ⟨group, unused, hgroup, hspills⟩ := hgroups 0 (.instr .enter [.number size]) (by
        have hlt := (List.getElem?_eq_some_iff.mp hget).1
        rw [Code.grow, List.getElem?_set_self hlt])
      refine ⟨group, hgroup, .inl ⟨rfl, ?_, size, hspills.eq_ofLine_enter⟩⟩
      unfold Code.opensWithEnter at henter
      split at henter
      · cases hget
        rfl
      · cases henter
    | succ index =>
      obtain ⟨group, unused, hgroup, hspills⟩ := hgroups (index + 1) line (by
        rw [Code.grow, List.getElem?_set_ne (Nat.succ_ne_zero index).symm, hget])
      exact ⟨group, hgroup, .inr ⟨unused, hspills⟩⟩

/-- **A stream and its groups run alike**, along every path. -/
theorem Mirrors.run {machine : Machine} {source target : machine.State}
    (hplan : SpillPlan code spilled temporaries)
    (hreturn : Register.returnAddress ∈ code.names → ¬ HasDistant groups)
    (hok : (code.spill spilled temporaries).result = .ok groups)
    (hcells : machine.Separates code.frame spilled)
    (h : Mirrors code.frame spilled (Hidden spilled temporaries groups) source target)
    (path : List Nat) :
    Mirrors code.frame spilled (Hidden spilled temporaries groups)
      (machine.run (code.map .ofLine) path source) (machine.run groups path target) ∧
    machine.trace (code.map .ofLine) path source = machine.trace groups path target := by
  obtain ⟨hlength, hgroups⟩ := Code.spill_renders hplan.toSpillable hok
  refine Machine.simulates (code.map .ofLine) groups
    (fun _ => Mirrors code.frame spilled (Hidden spilled temporaries groups))
    (by rw [hlength, List.length_map]) ?_ (fun _ _ _ _ h _ => h) path h
  intro index _ source target before group hbefore hgroup h
  rw [List.getElem?_map, Option.map_eq_some_iff] at hbefore
  obtain ⟨line, hget, rfl⟩ := hbefore
  obtain ⟨_, hgroup', hrenders⟩ := hgroups index line hget
  rw [hgroup] at hgroup'
  cases hgroup'
  rcases hrenders with ⟨rfl, henter, size, rfl⟩ | ⟨unused, hspills⟩
  · -- the leading `ENTER` has no effect and reads nothing
    have hidle : ∀ state : machine.State, machine.executeAt 0 line state = state :=
      fun state => if_pos ⟨rfl, henter⟩
    refine ⟨?_, ?_⟩
    · rw [Machine.executeGroup_ofLine, hidle]
      exact h
    · show (⟨line.sources.map _, _⟩ : machine.Observation) = ⟨_, _⟩
      rw [Machine.executeGroup_ofLine, hidle, (Line.roles_of_enter henter).1, h.environment]
      rfl
  · have hmem : group ∈ groups := List.mem_of_getElem? hgroup
    exact ⟨h.executeGroup hmem hspills hplan hreturn hget hcells,
      h.observe hmem hspills hplan hreturn hget hcells⟩

/-- A state of the groups is one of the stream, seen without spill code. -/
theorem exists_mirrored {machine : Machine} (frame : Frame) (groups : List Group)
    (hspillable : Spillable spilled temporaries) (target : machine.State) :
    ∃ source : machine.State,
      Mirrors frame spilled (Hidden spilled temporaries groups) source target ∧
      ∀ name ∉ spilled.map Interval.register, source.registers name = target.registers name := by
  let value (i : Interval) : machine.Value :=
    ((i.slot.bind frame.slotOffset?).map fun offset =>
      target.cells (machine.cell offset.toInt)).getD (target.registers i.register)
  let registers (name : String) : machine.Value :=
    ((spilled.find? fun i => i.register == name).map value).getD (target.registers name)
  have hkept : ∀ name ∉ spilled.map Interval.register,
      registers name = target.registers name := by
    intro name hname
    have hnone : spilled.find? (fun i => i.register == name) = none := by
      rw [List.find?_eq_none]
      exact fun i hi heq => hname (beq_iff_eq.mp heq ▸ List.mem_map_of_mem hi)
    simp only [registers, hnone, Option.map_none, Option.getD_none]
  refine ⟨⟨target.environment, registers, target.cells⟩, ⟨rfl, ?_, ?_⟩, hkept⟩
  · exact fun name hname => hkept name fun hspilled => hname (.inl hspilled)
  · intro i hi slot offset hslot hoffset
    simp only [registers, value, Interval.find?_register hspillable.nodup hi, hslot,
      Option.map_some, Option.getD_some, Option.bind_some, hoffset]

theorem Code.exists_cell (hspillable : Spillable spilled temporaries)
    (hslots : ∀ i ∈ spilled, ∃ slot < 2 ^ 31, i.slot = some slot)
    (hok : (code.spill spilled temporaries).result = .ok groups) {i : Interval}
    (hi : i ∈ spilled) :
    ∃ slot offset, i.slot = some slot ∧ code.frame.slotOffset? slot = some offset := by
  obtain ⟨_, size, hsize, _⟩ := Code.spill_ok (List.ne_nil_of_mem hi) hspillable hok
  have hlt := Code.lastSlot_lt_of_forall (List.ne_nil_of_mem hi) hslots
  obtain ⟨slot, _, hslot⟩ := hslots i hi
  have hle := (Code.lastSlot_spec spilled).2 i hi slot hslot
  obtain ⟨offset, hoffset⟩ := Frame.exists_slotOffset? hlt hsize hle
  exact ⟨slot, offset, hslot, hoffset⟩

/-- **Spill code is a simulation for any control flow.**  The code consists of one segment for each
line, and all of it reads back as loads and stores of the slots that it is for.  From states that
agree, the stream and its spilled form run to states that agree along every sequence of positions,
loops included, and every line on the way reads the same values and leaves the same environment.
This holds of the groups if every offset has a cell of its own.  It holds of the code itself on a
machine with addresses of 16 bits, as long as these are enough to tell the slots apart. -/
theorem spill_simulates (machine : Machine) (hplan : SpillPlan code spilled temporaries)
    (hok : (code.spill spilled temporaries).result = .ok groups)
    (hreturn : Register.returnAddress ∈ code.names → ¬ HasDistant groups) :
    let segments := groups.map Group.segment
    (Code.ofGroups groups = segments.flatMap Segment.code ∧ segments.length = code.length ∧
      ∀ group ∈ groups, group.ReadsBack) ∧
    (∀ i ∈ spilled, ∃ slot offset, i.slot = some slot ∧
      code.frame.slotOffset? slot = some offset) ∧
    ∀ (path : List Nat) (source target : machine.State),
      Mirrors code.frame spilled (Hidden spilled temporaries groups) source target →
      (machine.IsWide →
        Mirrors code.frame spilled (Hidden spilled temporaries groups)
          (machine.run (code.map .ofLine) path source) (machine.run groups path target) ∧
        machine.trace (code.map .ofLine) path source = machine.trace groups path target) ∧
      (machine.IsNarrow → SlotsApart spilled → ∃ final,
        machine.runCode segments path target =
          some (machine.trace (code.map .ofLine) path source, final) ∧
        Mirrors code.frame spilled (Hidden spilled temporaries groups)
          (machine.run (code.map .ofLine) path source) final) := by
  intro segments
  refine ⟨⟨Code.ofGroups_eq_segments groups, ?_, fun group _ => group.readsBack⟩, ?_, ?_⟩
  · rw [List.length_map, (Code.spill_renders hplan.toSpillable hok).1]
  · exact fun i hi => Code.exists_cell hplan.toSpillable hplan.slot hok hi
  · intro path source target h
    refine ⟨fun hwide => ?_, fun hnarrow hapart => ?_⟩
    · exact h.run hplan hreturn hok (hwide.separates hplan.slot hplan.slot_nodup _) path
    · obtain ⟨hend, htrace⟩ := h.run hplan hreturn hok (hnarrow.separates hplan.slot hapart _) path
      refine ⟨_, ?_, hend⟩
      rw [Machine.runCode_segments hnarrow, htrace]

/-- A loop over `x := x + y` with both registers spilled, `x` to a distant slot. -/
theorem spill_simulates_loop :
    let machine : Machine :=
      ⟨Int, Unit, fun _ _ values _ => ((), values.sum), fun offset => offset % 65536, fun _ _ => 0⟩
    let code : Code := [.instr .enter [.number 15],
      .instr .add [.register "x", .register "x", .register "y"]]
    let spilled : List Interval := [⟨"x", 1, 2, none, some 1⟩, ⟨"y", 1, 2, none, some 0⟩]
    let x : Access := ⟨"x", 1, 0, -17⟩
    let y : Access := ⟨"y", 0, 1, -16⟩
    let groups : List Group := [.ofLine (.instr .enter [.number 17]),
      ⟨[x, y], .instr .add [.register "r0", .register "r0", .register "r1"], [x]⟩]
    let source : machine.State := ⟨(), fun name => if name = "x" then 1 else 2, fun _ => 0⟩
    let target : machine.State := ⟨(), fun _ => 2, fun cell => if cell = 65519 then 1 else 2⟩
    ((code.spill spilled [0, 1]).result = .ok groups ∧ HasDistant groups ∧
      Mirrors code.frame spilled (Hidden spilled [0, 1] groups) source target) ∧
    ∃ final, machine.runCode (groups.map Group.segment) [0, 1, 1] target =
        some (machine.trace (code.map .ofLine) [0, 1, 1] source, final) ∧
      (machine.run (code.map .ofLine) [0, 1, 1] source).registers "x" = final.cells 65519 := by
  intro machine code spilled x y groups source target
  have hok : (code.spill spilled [0, 1]).result = .ok groups := by decide +kernel
  have hplan : SpillPlan code spilled [0, 1] := {
    nodup := by decide
    temporary_ne := by decide
    slot := by simp [spilled]
    slot_nodup := by decide
    temporaries_nodup := by decide
    temporary_fresh := by decide
    covers := by
      intro i hi index line hget hmem
      have hlt : index < 2 := (List.getElem?_eq_some_iff.mp hget).1
      interval_cases index
      · cases hget
        rcases hmem with hmem | hmem <;> cases hmem
      · cases hget
        revert i
        decide }
  have hapart : SlotsApart spilled := by
    intro i hi j hj slot other hslot hother hmod
    simp only [spilled, List.mem_cons, List.not_mem_nil, or_false] at hi hj
    rcases hi with rfl | rfl <;> rcases hj with rfl | rfl <;> cases hslot <;> cases hother
    · rfl
    · exact absurd hmod (by decide)
    · exact absurd hmod (by decide)
    · rfl
  have hstart : Mirrors code.frame spilled (Hidden spilled [0, 1] groups) source target := by
    refine ⟨rfl, ?_, ?_⟩
    · intro name hname
      exact if_neg fun heq => hname (.inl (by simp [spilled, heq]))
    · intro i hi slot offset hslot hoffset
      simp only [spilled, List.mem_cons, List.not_mem_nil, or_false] at hi
      rcases hi with rfl | rfl
      · cases hslot
        cases (show code.frame.slotOffset? 1 = some (-17) by decide).symm.trans hoffset
        rfl
      · cases hslot
        cases (show code.frame.slotOffset? 0 = some (-16) by decide).symm.trans hoffset
        rfl
  obtain ⟨_, _, hruns⟩ := spill_simulates machine hplan hok (by decide)
  obtain ⟨final, hrun, hend⟩ := (hruns [0, 1, 1] source target hstart).2 (fun _ _ => Iff.rfl) hapart
  refine ⟨⟨hok, by decide, hstart⟩, final, hrun, ?_⟩
  exact hend.cells ⟨"x", 1, 2, none, some 1⟩ (by simp [spilled]) 1 (-17) rfl (by decide)

end TurtleAlloc
