import Mathlib
import TurtleAlloc.Proofs.Compile.Outcome
import TurtleAlloc.Proofs.LabelTable
import TurtleAlloc.Proofs.Spill.Names

/-!
# What compilation keeps of a stream

* `Line.Resembles` — the same line up to its registers, pinned ones apart.
* `Group.Carries` — a group around a line that resembles a given one: complete loads in front of it,
  complete stores behind it, nothing around a label.
* `Code.carries_of_round` — the groups of a round carry the lines of the stream, its leading `ENTER`
  being given another size if the round spills.
* `Code.ofCode_ofGroups` — labels are declared where groups begin in the code, in the same order and
  under the same names.
* `compile_skeleton` — all this of a compiled stream.
-/

namespace TurtleAlloc

/-! ## Lines that differ in their registers -/

/-- The same operand, or two registers of which the first is not pinned. -/
inductive Operand.Resembles : Operand → Operand → Prop
  | register {name image : String} (h : Register.isPinned name = true → image = name) :
      Resembles (.register name) (.register image)
  | label (name : String) : Resembles (.label name) (.label name)
  | number (value : Int32) : Resembles (.number value) (.number value)

/-- The same label, or the same operation on operands that resemble each other one by one. -/
inductive Line.Resembles : Line → Line → Prop
  | label (name : String) : Resembles (.label name) (.label name)
  | instr (opcode : Opcode) {operands images : List Operand}
      (h : List.Forall₂ Operand.Resembles operands images) :
      Resembles (.instr opcode operands) (.instr opcode images)

variable {code : Code} {pool registers index : Nat} {groups : List Group} {group : Group}
  {line : Line} {name : String}

theorem Line.resembles_mapRegisters {f : String → String}
    (hf : ∀ name, Register.isPinned name = true → f name = name) (line : Line) :
    line.Resembles (line.mapRegisters f) := by
  cases line with
  | label name => exact .label name
  | instr opcode operands =>
    refine .instr opcode (List.forall₂_map_right_iff.mpr (List.forall₂_same.mpr ?_))
    intro operand _
    cases operand with
    | register name => exact .register (hf name)
    | label name => exact .label name
    | number value => exact .number value

theorem Line.Resembles.isLabel_eq {image : Line} (h : line.Resembles image) :
    image.isLabel = line.isLabel := by
  cases h <;> rfl

/-! ## One line -/

/-- A line like the given one, with complete loads in front of it and complete stores behind it. -/
structure Group.Carries (line : Line) (group : Group) : Prop where
  resembles : line.Resembles group.line
  loads : ∀ a ∈ group.loads, ∃ offset, a.load.move? = some ⟨.load, a.temporaryName, offset⟩
  stores : ∀ a ∈ group.stores, ∃ offset, a.store.move? = some ⟨.store, a.temporaryName, offset⟩
  bare : line.isLabel = true → group.loads = [] ∧ group.stores = []

theorem Group.carries_of_resembles (hline : line.Resembles group.line)
    (hbare : line.isLabel = true → group.loads = [] ∧ group.stores = []) : group.Carries line :=
  ⟨hline, fun _ _ => ⟨_, move?_slotAccess ..⟩, fun _ _ => ⟨_, move?_slotAccess ..⟩, hbare⟩

theorem Line.mapRegisters_of_spill {frame : Frame} {spilled : List Interval}
    {temporaries : List Nat}
    (hspilled : ∀ i ∈ spilled, Register.isPinned i.register = false)
    (hok : (line.spill frame spilled temporaries index).result = .ok group) :
    ∃ f : String → String, (∀ name, Register.isPinned name = true → f name = name) ∧
      group.line = line.mapRegisters f := by
  obtain ⟨draft, rfl, _, h⟩ := Line.spill_induction
    (motive := fun pending draft => pending ⊆ spilled ∧ ∃ f : String → String,
      (∀ name, Register.isPinned name = true → f name = name) ∧
        draft.group.line = line.mapRegisters f) hok
    ⟨List.filter_sublist.subset, fun name => name, fun _ _ => rfl, line.mapRegisters_id.symm⟩ (by
      rintro interval pending draft next ⟨hpending, f, hf, hline⟩ hnext
      refine ⟨fun i hi => hpending (List.mem_cons_of_mem _ hi), ?_⟩
      rcases Draft.spill_cases hnext with ⟨rfl, _⟩ | ⟨access, _, _, _, _, hrename, _⟩
      · exact ⟨f, hf, hline⟩
      · refine ⟨fun name => if f name = interval.register then access.temporaryName else f name,
          fun name hname => ?_, ?_⟩
        · have hne : name ≠ interval.register := by
            rintro rfl
            rw [hspilled interval (hpending List.mem_cons_self)] at hname
            cases hname
          simp only [hf name hname, if_neg hne]
        · rw [hrename, hline, Line.rename, Line.mapRegisters_mapRegisters])
  exact h

theorem Line.carries_of_spill {frame : Frame} {spilled : List Interval} {temporaries : List Nat}
    {f : String → String} (hf : ∀ name, Register.isPinned name = true → f name = name)
    (hspilled : ∀ i ∈ spilled, Register.isPinned i.register = false)
    (hok : ((line.mapRegisters f).spill frame spilled temporaries index).result = .ok group) :
    group.Carries line := by
  refine Group.carries_of_resembles ?_ fun hlabel => ?_
  · obtain ⟨g, hg, hgroup⟩ := Line.mapRegisters_of_spill hspilled hok
    rw [hgroup, Line.mapRegisters_mapRegisters]
    refine line.resembles_mapRegisters fun name hname => ?_
    rw [hf name hname, hg name hname]
  · cases line with
    | instr opcode operands => cases hlabel
    | label name =>
      rw [Line.spill_eq_ofLine rfl rfl hok]
      exact ⟨rfl, rfl⟩

/-! ## A round -/

theorem Placement.physicalAt_of_pinned {allocated : List Interval}
    (h : Placement code pool allocated) (hpinned : Register.isPinned name = true) :
    Code.physicalAt allocated index name = name := by
  unfold Code.physicalAt
  cases hfind : allocated.find? fun interval => interval.register == name with
  | none => rfl
  | some interval =>
    have hregister : interval.register = name := by simpa using List.find?_some hfind
    subst hregister
    have hlocation := h.location_eq_self_of_pinned (List.mem_of_find?_eq_some hfind) hpinned
    simp only
    split_ifs
    · exact hlocation
    · rfl

namespace Code

theorem exists_line_of_renamedIn (hget : (code.renamedIn pool)[index]? = some line) :
    ∃ original, code[index]? = some original ∧ ∃ f : String → String,
      (∀ name, Register.isPinned name = true → f name = name) ∧
        line = original.mapRegisters f := by
  rw [renamedIn, getElem?_assign, Option.map_eq_some_iff] at hget
  obtain ⟨original, hget, rfl⟩ := hget
  exact ⟨original, hget, _,
    fun _ hname => (placement_allocate code pool).physicalAt_of_pinned hname, rfl⟩

theorem exists_line_of_grow_renamedIn {size : Int32}
    (hget : ((code.renamedIn pool).grow size)[index]? = some line) :
    ∃ original, (code.grow size)[index]? = some original ∧ ∃ f : String → String,
      (∀ name, Register.isPinned name = true → f name = name) ∧
        line = original.mapRegisters f := by
  cases index with
  | zero =>
    cases code with
    | nil => cases hget
    | cons first rest =>
      cases hget
      exact ⟨_, rfl, fun name => name, fun _ _ => rfl, rfl⟩
  | succ index =>
    rw [grow, List.getElem?_set_ne (Nat.succ_ne_zero index).symm] at hget ⊢
    exact exists_line_of_renamedIn hget

/-- **The groups of a round** carry the lines of the stream, its leading `ENTER` being given another
size if the round spills. -/
theorem carries_of_round (hround : code.round registers pool = .ok groups) :
    (code.spilledIn pool = [] → List.Forall₂ Group.Carries code groups) ∧
    (code.spilledIn pool ≠ [] → code.opensWithEnter = true ∧ ∃ size,
      List.Forall₂ Group.Carries (code.grow size) groups) := by
  constructor
  · intro hspilled
    rw [round_of_spilledIn_eq_nil registers hspilled] at hround
    cases hround
    refine forall₂_lines (by simp) fun index group hgroup => ?_
    rw [List.getElem?_map, Option.map_eq_some_iff] at hgroup
    obtain ⟨renamed, hrenamed, rfl⟩ := hgroup
    obtain ⟨line, hline, f, hf, rfl⟩ := exists_line_of_renamedIn hrenamed
    exact ⟨line, hline,
      Group.carries_of_resembles (line.resembles_mapRegisters hf) fun _ => ⟨rfl, rfl⟩⟩
  · intro hspilled
    obtain ⟨henter, hlength, size, _, hlines⟩ := lines_of_spill hspilled hround
    rw [opensWithEnter_renamedIn] at henter
    rw [length_renamedIn] at hlength
    refine ⟨henter, size, forall₂_lines (by rw [hlength, grow, List.length_set]) ?_⟩
    intro index group hgroup
    obtain ⟨renamed, hrenamed, hspill⟩ := hlines index group hgroup
    obtain ⟨line, hline, f, hf, rfl⟩ := exists_line_of_grow_renamedIn hrenamed
    exact ⟨line, hline, Line.carries_of_spill hf
      (fun i hi => ((placement_allocate code pool).exists_slot_lt hi).1) hspill⟩

end Code

/-! ## Labels -/

theorem isLabel_of_mem_slotAccess {opcode : Opcode} {temporary : String} {offset : Int32}
    (h : line ∈ slotAccess opcode temporary offset) : line.isLabel = false := by
  unfold slotAccess at h
  split at h
  · rw [List.mem_singleton.mp h]
    rfl
  · simp only [List.mem_cons, List.not_mem_nil, or_false] at h
    rcases h with rfl | rfl | rfl | rfl <;> rfl

theorem Group.Carries.isLabel_eq_false {out : Line} (h : group.Carries line)
    (hline : line.isLabel = false) (hout : out ∈ group.code) : out.isLabel = false := by
  rcases List.mem_append.mp hout with hload | hout
  · obtain ⟨a, _, hmem⟩ := List.mem_flatMap.mp hload
    exact isLabel_of_mem_slotAccess hmem
  · rcases List.mem_cons.mp hout with rfl | hstore
    · rw [h.resembles.isLabel_eq, hline]
    · obtain ⟨a, _, hmem⟩ := List.mem_flatMap.mp hstore
      exact isLabel_of_mem_slotAccess hmem

theorem Group.Carries.code_label (h : group.Carries (.label name)) :
    group.code = [.label name] := by
  obtain ⟨hloads, hstores⟩ := h.bare rfl
  have hline := h.resembles
  rw [Group.code, hloads, hstores]
  cases hgroup : group.line with
  | label other =>
    rw [hgroup] at hline
    cases hline
    rfl
  | instr opcode operands =>
    rw [hgroup] at hline
    cases hline

namespace Code

/-- **The labels of laid-out groups** are declared where the groups of their lines begin. -/
theorem declareAll_ofGroups (h : List.Forall₂ Group.Carries code groups)
    (table : LabelTable) {f : Nat → Nat} {start : Nat}
    (hf : ∀ count, f (index + count) = start + groupStart groups count) :
    (table.relocate f).declareAll start (ofGroups groups) =
      (table.declareAll index code).map (LabelTable.relocate f) := by
  induction h generalizing table index start with
  | nil => rfl
  | cons hfirst hrest ih =>
    rename_i line group rest groups
    have hstart : f index = start := hf 0
    have hnext : ∀ count, f (index + 1 + count) =
        start + group.code.length + groupStart groups count := by
      intro count
      rw [Nat.add_assoc index, Nat.add_comm 1, hf, groupStart_cons_succ, Nat.add_assoc]
    show (table.relocate f).declareAll start (group.code ++ ofGroups groups) = _
    cases line with
    | label name =>
      rw [hfirst.code_label] at hnext ⊢
      rw [List.singleton_append, LabelTable.declareAll_label_cons, ← hstart,
        LabelTable.declare_relocate, LabelTable.declareAll_label_cons]
      cases table.declare name index with
      | error duplicate => rfl
      | ok next =>
        rw [← hstart] at hnext
        exact ih next hnext
    | instr opcode operands =>
      rw [LabelTable.declareAll_append_of_instr _
        (fun out hout => hfirst.isLabel_eq_false rfl hout)]
      exact ih table hnext

theorem ofCode_ofGroups (h : List.Forall₂ Group.Carries code groups) :
    LabelTable.ofCode (ofGroups groups) =
      (LabelTable.ofCode code).map (LabelTable.relocate (groupStart groups)) :=
  declareAll_ofGroups h ⟨[]⟩ fun count => by rw [Nat.zero_add, Nat.zero_add]

/-- **Behind a label** come the groups of the lines behind it. -/
theorem exists_line_of_label (h : List.Forall₂ Group.Carries code groups)
    {position : Nat} (hget : (ofGroups groups)[position]? = some (.label name)) :
    ∃ index, code[index]? = some (.label name) ∧ groupStart groups index = position ∧
      (ofGroups groups).drop (position + 1) = ofGroups (groups.drop (index + 1)) := by
  induction h generalizing position with
  | nil => simp [ofGroups] at hget
  | cons hfirst hrest ih =>
    rename_i line group rest groups
    have hcode : ofGroups (group :: groups) = group.code ++ ofGroups groups := rfl
    rw [hcode] at hget ⊢
    by_cases hlt : position < group.code.length
    · -- only the group of a label has one, and nothing else
      rw [List.getElem?_append_left hlt] at hget
      cases line with
      | instr opcode operands =>
        cases hfirst.isLabel_eq_false rfl (List.mem_of_getElem? hget)
      | label first =>
        rw [hfirst.code_label] at hlt hget ⊢
        obtain rfl : position = 0 := Nat.lt_one_iff.mp hlt
        cases hget
        exact ⟨0, rfl, rfl, rfl⟩
    · have hle : group.code.length ≤ position := Nat.le_of_not_lt hlt
      rw [List.getElem?_append_right hle] at hget
      obtain ⟨index, hline, hstart, hdrop⟩ := ih hget
      refine ⟨index + 1, hline, ?_, ?_⟩
      · rw [groupStart_cons_succ, hstart, Nat.add_sub_cancel' hle]
      · rw [List.drop_append, List.drop_eq_nil_of_le (by omega), List.nil_append,
          Nat.sub_add_comm hle, hdrop, List.drop_succ_cons]

/-! ## The first line -/

variable {size : Int32}

theorem ofCode_grow (henter : code.opensWithEnter = true) :
    LabelTable.ofCode (code.grow size) = LabelTable.ofCode code := by
  unfold opensWithEnter at henter
  split at henter
  · rfl
  · cases henter

theorem getElem?_grow_label (hget : (code.grow size)[index]? = some (.label name)) :
    code[index]? = some (.label name) := by
  cases index with
  | zero =>
    cases code with
    | nil => cases hget
    | cons line rest => cases hget
  | succ index => rwa [grow, List.getElem?_set_ne (Nat.succ_ne_zero index).symm] at hget

end Code

/-- What code keeps of a stream whose lines it treats one by one, in groups. -/
structure Skeleton (code : Code) (groups : List Group) : Prop where
  /-- The labels have the names and the order that they have in the stream, and each lies where the
  group of its line begins. -/
  table : LabelTable.ofCode (Code.ofGroups groups) =
    (LabelTable.ofCode code).map (LabelTable.relocate (Code.groupStart groups))
  /-- Each label is that of a line of the stream, and the group of the next line comes next. -/
  next : ∀ (position : Nat) (name : String),
    (Code.ofGroups groups)[position]? = some (.label name) →
      ∃ index, code[index]? = some (.label name) ∧ Code.groupStart groups index = position ∧
        (Code.ofGroups groups).drop (position + 1) = Code.ofGroups (groups.drop (index + 1))

theorem Code.skeleton_of_round (hround : code.round registers pool = .ok groups) :
    Skeleton code groups := by
  obtain ⟨hkept, hgrown⟩ := carries_of_round hround
  by_cases hspilled : code.spilledIn pool = []
  · exact ⟨ofCode_ofGroups (hkept hspilled), fun _ _ => exists_line_of_label (hkept hspilled)⟩
  · obtain ⟨henter, size, hcarries⟩ := hgrown hspilled
    refine ⟨?_, fun position name hget => ?_⟩
    · rw [ofCode_ofGroups hcarries, ofCode_grow henter]
    · obtain ⟨index, hline, hnext⟩ := exists_line_of_label hcarries hget
      exact ⟨index, getElem?_grow_label hline, hnext⟩

/-- **Compilation keeps the skeleton of a stream.**  A compiled stream consists of one group for
each line of the original.  The group carries the line, up to its registers that are not pinned; if
there is a spill, then the first line is `ENTER` and is given another size.  So the labels are the
same, and what follows a label is the code for the line that followed it. -/
theorem compile_skeleton {options : Options} {out : Code}
    (hok : (code.compile options).result = .ok out) :
    ∃ pool groups, pool ≤ options.registers ∧ code.Tries options.registers pool ∧
      code.round options.registers pool = .ok groups ∧ out = Code.ofGroups groups ∧
      (code.spilledIn pool = [] → List.Forall₂ Group.Carries code groups) ∧
      (code.spilledIn pool ≠ [] → code.opensWithEnter = true ∧
        ∃ size, List.Forall₂ Group.Carries (code.grow size) groups) ∧
      Skeleton code groups := by
  obtain ⟨groups, hgroups, hout⟩ := Code.exists_groups hok
  obtain ⟨pool, hpool, htries, hround⟩ := Code.exists_last_round hgroups
  obtain ⟨hkept, hgrown⟩ := Code.carries_of_round hround
  exact ⟨pool, groups, hpool, htries, hround, hout, hkept, hgrown, Code.skeleton_of_round hround⟩

/-- A loop around two spilled registers, the second of which is read and written at its head: what
follows the label is the load, in its long form. -/
theorem compile_skeleton_loop :
    let code : Code := [.instr .enter [.number 15], .instr .li [.register "a", .number 0],
      .label "top", .instr .add [.register "b", .register "b", .register "fp"],
      .instr .cmpi [.register "a", .number 1], .instr .beq [.label "top"]]
    let a : Access := ⟨"a", 0, 0, -16⟩
    let b : Access := ⟨"b", 1, 0, -17⟩
    let groups : List Group := [.ofLine (.instr .enter [.number 17]),
      ⟨[], .instr .li [.register "r0", .number 0], [a]⟩, .ofLine (.label "top"),
      ⟨[b], .instr .add [.register "r0", .register "r0", .register "fp"], [b]⟩,
      ⟨[a], .instr .cmpi [.register "r0", .number 1], []⟩, .ofLine (.instr .beq [.label "top"])]
    (code.compile ⟨1, true⟩).result = .ok (Code.ofGroups groups) ∧ code.spilledIn 0 ≠ [] ∧
      (∃ size, List.Forall₂ Group.Carries (code.grow size) groups) ∧ Skeleton code groups := by
  intro code a b groups
  have hok : (code.compile ⟨1, true⟩).result = .ok (Code.ofGroups groups) := by decide +kernel
  have hround : code.round 1 0 = .ok groups := by decide +kernel
  have hspilled : code.spilledIn 0 ≠ [] := by decide +kernel
  obtain ⟨pool, _, hpool, htries, hround', _, _, hgrown, hskeleton⟩ := compile_skeleton hok
  obtain rfl : pool = 0 :=
    htries.eq_of_ok (by decide +kernel) hpool (Nat.zero_le _) hround' hround
  cases hround.symm.trans hround'
  exact ⟨hok, hspilled, (hgrown hspilled).2, hskeleton⟩

end TurtleAlloc
