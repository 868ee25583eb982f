import Mathlib
import TurtleAlloc.Proofs.Block
import TurtleAlloc.Proofs.Compile.Skeleton

/-!
# Compilation keeps basic blocks

* `Group.Replaces` — the code of a group is straight, begins with a label if its line is one and
  ends with a terminator if its line is one.
* `Code.pieces_ofGroups` — such groups are cut where their lines are cut.
* `Block.image`, `Code.blocks_ofGroups` — so the blocks of the laid-out groups are the blocks of the
  lines, each with the code of its groups.
* `Line.stores_eq_nil_of_spill` — nothing is stored behind a line that writes pinned registers only.
* `compile_blocks` — the blocks of a compiled stream.
-/

namespace TurtleAlloc

variable {code : Code} {groups : List Group} {group : Group} {line : Line}
  {pool registers index : Nat}

/-! ## Cutting groups -/

/-- Control enters and leaves a group as it enters and leaves its line. -/
structure Group.Replaces (line : Line) (group : Group) : Prop where
  straight : group.code.Straight
  terminator : group.code.endsWithTerminator = line.isTerminator
  label : group.code.startsWithLabel = line.isLabel

namespace Code

theorem startsWithLabel_ofGroups (h : List.Forall₂ Group.Replaces code groups) :
    startsWithLabel (ofGroups groups) = startsWithLabel code := by
  cases h with
  | nil => rfl
  | @cons line group code groups hfirst hrest =>
    show startsWithLabel (group.code ++ ofGroups groups) = line.isLabel
    rw [← hfirst.label]
    cases hcode : group.code with
    | nil => exact absurd hcode hfirst.straight.ne_nil
    | cons first others => rfl

theorem splits_ofGroups (hfirst : group.Replaces line)
    (h : List.Forall₂ Group.Replaces code groups) :
    Splits group.code (ofGroups groups) ↔ Splits [line] code := by
  unfold Splits
  rw [hfirst.terminator, startsWithLabel_ofGroups h]
  rfl

/-- **Groups are cut where their lines are cut.** -/
theorem pieces_ofGroups (h : List.Forall₂ Group.Replaces code groups) :
    ∃ parts : List (List Group), parts.flatten = groups ∧
      List.Forall₂ (List.Forall₂ Group.Replaces) code.pieces parts ∧
      (ofGroups groups).pieces = parts.map ofGroups := by
  induction h with
  | nil => exact ⟨[], rfl, .nil, rfl⟩
  | @cons line group code groups hfirst hrest ih =>
    obtain ⟨parts, rfl, hparts, hpieces⟩ := ih
    have hcode : (ofGroups (group :: parts.flatten)).pieces =
        attach group.code (parts.map ofGroups) := by
      rw [← hpieces]
      exact pieces_append hfirst.straight _
    rw [hcode, pieces_cons]
    generalize pieces code = cut at hparts
    cases hparts with
    | nil => exact ⟨[[group]], rfl, .cons (.cons hfirst .nil) .nil, by simp [attach, ofGroups]⟩
    | @cons piece part cut parts hpiece hlater =>
      by_cases hsplits : Splits [line] piece
      · refine ⟨[group] :: part :: parts, rfl, ?_, ?_⟩
        · rw [attach_of_splits hsplits]
          exact .cons (.cons hfirst .nil) (.cons hpiece hlater)
        · rw [List.map_cons, attach_of_splits ((splits_ofGroups hfirst hpiece).mpr hsplits)]
          simp [ofGroups]
      · refine ⟨(group :: part) :: parts, rfl, ?_, ?_⟩
        · rw [attach_of_not_splits hsplits]
          exact .cons (.cons hfirst hpiece) hlater
        · rw [List.map_cons,
            attach_of_not_splits (mt (splits_ofGroups hfirst hpiece).mp hsplits)]
          rfl

end Code

/-- The code that the groups of a stream have for the lines of a block, where it lies. -/
def Block.image (groups : List Group) (block : Block) : Block where
  start := Code.groupStart groups block.start
  code := Code.ofGroups ((groups.drop block.start).take block.code.length)

namespace Code

theorem layOut_ofGroups {cut : List Code} {parts : List (List Group)}
    (h : List.Forall₂ (List.Forall₂ Group.Replaces) cut parts) (before : List Group) :
    layOut (ofGroups before).length (parts.map ofGroups) =
      (layOut before.length cut).map (Block.image (before ++ parts.flatten)) := by
  induction h generalizing before with
  | nil => rfl
  | @cons piece part cut parts hpiece hlater ih =>
    have hlength : piece.length = part.length := hpiece.length_eq
    have hnext := ih (before ++ part)
    have hcode : ofGroups (before ++ part) = ofGroups before ++ ofGroups part :=
      List.flatMap_append
    rw [hcode, List.length_append, List.length_append, List.append_assoc] at hnext
    rw [List.map_cons, layOut, layOut, List.map_cons, List.flatten_cons, hnext, hlength]
    congr 1
    simp only [Block.image, groupStart, hlength, List.take_left, List.drop_left]

/-- **The blocks of laid-out groups are the blocks of their lines.** -/
theorem blocks_ofGroups (h : List.Forall₂ Group.Replaces code groups) :
    (ofGroups groups).blocks = code.blocks.map (Block.image groups) := by
  obtain ⟨parts, rfl, hparts, hpieces⟩ := pieces_ofGroups h
  rw [blocks, hpieces]
  exact layOut_ofGroups hparts []

end Code

/-! ## The code of a group -/

theorem isTerminator_of_mem_slotAccess {opcode : Opcode} (hopcode : opcode.isTerminator = false)
    {temporary : String} {offset : Int32} (h : line ∈ slotAccess opcode temporary offset) :
    line.isTerminator = false := by
  unfold slotAccess at h
  split at h
  · rw [List.mem_singleton.mp h]
    exact hopcode
  · simp only [List.mem_cons, List.not_mem_nil, or_false] at h
    rcases h with rfl | rfl | rfl | rfl
    · rfl
    · rfl
    · rfl
    · exact hopcode

theorem Line.Resembles.isTerminator_eq {image : Line} (h : line.Resembles image) :
    image.isTerminator = line.isTerminator := by
  cases h <;> rfl

namespace Code

theorem straight_concat (hcode : ∀ other ∈ code, other.isTerminator = false)
    (hlabel : ∀ other ∈ code ++ [line], other.isLabel = false) : Straight (code ++ [line]) := by
  refine ⟨by simp, fun position name hget => ?_, fun position other hget hother => ?_⟩
  · cases hlabel _ (List.mem_of_getElem? hget)
  · rw [List.length_append, List.length_singleton]
    have hlt := (List.getElem?_eq_some_iff.mp hget).1
    rw [List.length_append, List.length_singleton] at hlt
    by_contra hne
    rw [List.getElem?_append_left (by omega)] at hget
    rw [hcode other (List.mem_of_getElem? hget)] at hother
    cases hother

end Code

theorem Group.Carries.replaces (h : group.Carries line)
    (hstores : line.isTerminator = true → group.stores = []) : group.Replaces line := by
  cases line with
  | label name =>
    have hcode := h.code_label
    exact ⟨hcode ▸ Code.straight_singleton _, by rw [hcode]; rfl, by rw [hcode]; rfl⟩
  | instr opcode operands =>
    have hlabel : ∀ out ∈ group.code, out.isLabel = false :=
      fun out hout => h.isLabel_eq_false rfl hout
    have hloads : ∀ out ∈ group.loads.flatMap Access.load, out.isTerminator = false := by
      intro out hout
      obtain ⟨access, _, hmem⟩ := List.mem_flatMap.mp hout
      exact isTerminator_of_mem_slotAccess rfl hmem
    have hfirst : group.code.startsWithLabel = false := by
      cases hcode : group.code with
      | nil => rfl
      | cons first others => exact hlabel first (by rw [hcode]; exact List.mem_cons_self)
    cases hterminator : (Line.instr opcode operands).isTerminator with
    | true =>
      have hcode : group.code = group.loads.flatMap Access.load ++ [group.line] := by
        rw [Group.code, hstores hterminator]
        rfl
      rw [hcode] at hlabel
      refine ⟨hcode ▸ Code.straight_concat hloads hlabel, ?_, hfirst⟩
      rw [hcode, Code.endsWithTerminator, List.getLast?_concat, Option.any_some,
        h.resembles.isTerminator_eq]
    | false =>
      have hplain : ∀ out ∈ group.code, out.isTerminator = false := by
        intro out hout
        rcases List.mem_append.mp hout with hload | hout
        · exact hloads out hload
        · rcases List.mem_cons.mp hout with rfl | hstore
          · rw [h.resembles.isTerminator_eq, hterminator]
          · obtain ⟨access, _, hmem⟩ := List.mem_flatMap.mp hstore
            exact isTerminator_of_mem_slotAccess rfl hmem
      have hne : group.code ≠ [] := by simp [Group.code]
      obtain ⟨others, last, hcode⟩ := (List.eq_nil_or_concat' group.code).resolve_left hne
      rw [hcode] at hlabel hplain
      refine ⟨hcode ▸ Code.straight_concat ?_ hlabel, ?_, hfirst⟩
      · exact fun out hout => hplain out (List.mem_append_left _ hout)
      · rw [hcode, Code.endsWithTerminator, List.getLast?_concat, Option.any_some, hterminator]
        exact hplain last (by simp)

/-! ## A round -/

/-- **Nothing is stored behind a line that writes pinned registers only.** -/
theorem Line.stores_eq_nil_of_spill {frame : Frame} {spilled : List Interval}
    {temporaries : List Nat}
    (hspilled : ∀ i ∈ spilled, Register.isPinned i.register = false)
    (hpinned : ∀ name ∈ line.destinations, Register.isPinned name = true)
    (hok : (line.spill frame spilled temporaries index).result = .ok group) :
    group.stores = [] := by
  obtain ⟨draft, rfl, _, _, hstores⟩ := Line.spill_induction
    (motive := fun pending draft => pending ⊆ spilled ∧
      (∀ name ∈ draft.group.line.destinations, Register.isPinned name = true) ∧
      draft.group.stores = []) hok ⟨List.filter_sublist.subset, hpinned, rfl⟩ (by
      rintro interval pending draft next ⟨hpending, hwrites, hstores⟩ hnext
      have hunwritten : interval.register ∉ draft.group.line.destinations := by
        intro hmem
        have hinterval := hspilled interval (hpending List.mem_cons_self)
        rw [hwrites _ hmem] at hinterval
        cases hinterval
      refine ⟨fun i hi => hpending (List.mem_cons_of_mem _ hi), ?_⟩
      cases Draft.treats_of_ok hnext with
      | idle _ _ => exact ⟨hwrites, hstores⟩
      | load access _ hserves _ _ _ =>
        refine ⟨fun name hname => ?_, hstores⟩
        -- the register that is renamed is not among the destinations
        rw [Draft.withLoad, Line.rename, Line.destinations_mapRegisters, List.mem_map] at hname
        obtain ⟨old, hold, rfl⟩ := hname
        have hne : old ≠ access.register := fun heq => hunwritten (hserves.register ▸ heq ▸ hold)
        rw [if_neg hne]
        exact hwrites old hold
      | loadStore _ _ _ _ hmem _ => exact absurd hmem hunwritten
      | store _ _ _ hmem _ => exact absurd hmem hunwritten)
  exact hstores

/-- `JALR` is the only terminator that writes a register. -/
theorem Opcode.eq_jalr_of_writesFirst {opcode : Opcode} (hterminator : opcode.isTerminator = true)
    (hwrites : opcode.writesFirst = true) : opcode = .jalr := by
  revert hterminator hwrites
  cases opcode <;> decide

/-- Every `JALR` of a stream leaves the return address in a pinned register, if in any. -/
def Code.LinksPinned (code : Code) : Prop :=
  ∀ operands, .instr .jalr operands ∈ code →
    ∀ name, operands.head? = some (.register name) → Register.isPinned name = true

theorem Code.LinksPinned.isPinned_of_mem_destinations (h : code.LinksPinned) (hmem : line ∈ code)
    (hterminator : line.isTerminator = true) {name : String} (hname : name ∈ line.destinations) :
    Register.isPinned name = true := by
  cases line with
  | label _ => cases hname
  | instr opcode operands =>
    simp only [Line.destinations] at hname
    split at hname
    · rename_i hwrites
      obtain rfl := Opcode.eq_jalr_of_writesFirst hterminator hwrites
      refine h operands hmem name ?_
      rcases operands with _ | ⟨operand, others⟩
      · cases hname
      · cases operand with
        | register first =>
          rw [List.mem_singleton.mp hname]
          rfl
        | label _ => cases hname
        | number _ => cases hname
    · cases hname

theorem Code.LinksPinned.grow (h : code.LinksPinned) (size : Int32) :
    (code.grow size).LinksPinned := by
  intro operands hmem name hhead
  rcases List.mem_or_eq_of_mem_set hmem with hmem | heq
  · exact h operands hmem name hhead
  · cases heq

/-- **The groups of a round take the places of the lines of the stream.** -/
theorem Code.replaces_of_round (hlinks : code.LinksPinned)
    (hround : code.round registers pool = .ok groups) :
    List.Forall₂ Group.Replaces code groups := by
  by_cases hspilled : code.spilledIn pool = []
  · rw [round_of_spilledIn_eq_nil registers hspilled] at hround
    cases hround
    refine forall₂_lines (by simp) fun index group hgroup => ?_
    rw [List.getElem?_map, Option.map_eq_some_iff] at hgroup
    obtain ⟨renamed, hrenamed, rfl⟩ := hgroup
    obtain ⟨line, hline, f, hf, rfl⟩ := exists_line_of_renamedIn hrenamed
    have hcarries : (Group.ofLine (line.mapRegisters f)).Carries line :=
      Group.carries_of_resembles (line.resembles_mapRegisters hf) fun _ => ⟨rfl, rfl⟩
    exact ⟨line, hline, hcarries.replaces fun _ => rfl⟩
  · obtain ⟨henter, hlength, size, _, hlines⟩ := lines_of_spill hspilled hround
    rw [opensWithEnter_renamedIn] at henter
    rw [length_renamedIn] at hlength
    have hunpinned : ∀ i ∈ code.spilledIn pool, Register.isPinned i.register = false :=
      fun i hi => ((placement_allocate code pool).exists_slot_lt hi).1
    have hgrown : List.Forall₂ Group.Replaces (code.grow size) groups := by
      refine forall₂_lines (by rw [hlength, grow, List.length_set]) fun index group hgroup => ?_
      obtain ⟨renamed, hrenamed, hspill⟩ := hlines index group hgroup
      obtain ⟨line, hline, f, hf, rfl⟩ := exists_line_of_grow_renamedIn hrenamed
      refine ⟨line, hline, (Line.carries_of_spill hf hunpinned hspill).replaces fun hends => ?_⟩
      refine Line.stores_eq_nil_of_spill hunpinned (fun name hname => ?_) hspill
      rw [Line.destinations_mapRegisters, List.mem_map] at hname
      obtain ⟨old, hold, rfl⟩ := hname
      have hold := (hlinks.grow size).isPinned_of_mem_destinations (List.mem_of_getElem? hline)
        hends hold
      rwa [hf old hold]
    -- the size of the frame is nothing to the flow of control
    unfold opensWithEnter at henter
    split at henter
    · cases hgrown with
      | cons hfirst hrest =>
        exact .cons ⟨hfirst.straight, hfirst.terminator, hfirst.label⟩ hrest
    · cases henter

/-- **Compilation keeps basic blocks.**  If every `JALR` links through a pinned register, then the
blocks of a compiled stream are those of the original one by one: the code of each consists of the
groups of the lines of its original, in their order.  The group of a line carries that line, the
size of the leading `ENTER` apart. -/
theorem compile_blocks {options : Options} {out : Code} (hlinks : code.LinksPinned)
    (hok : (code.compile options).result = .ok out) :
    ∃ groups, (code.compileGroups options).result = .ok groups ∧ out = Code.ofGroups groups ∧
      (List.Forall₂ Group.Carries code groups ∨ code.opensWithEnter = true ∧
        ∃ size, List.Forall₂ Group.Carries (code.grow size) groups) ∧
      out.partition.value.length = code.partition.value.length ∧
      out.partition.value = code.partition.value.map (Block.image groups) := by
  obtain ⟨groups, hgroups, rfl⟩ := Code.exists_groups hok
  obtain ⟨pool, _, _, hround⟩ := Code.exists_last_round hgroups
  obtain ⟨hkept, hgrown⟩ := Code.carries_of_round hround
  have hblocks : (Code.ofGroups groups).partition.value =
      code.partition.value.map (Block.image groups) :=
    Code.blocks_ofGroups (Code.replaces_of_round hlinks hround)
  refine ⟨groups, hgroups, rfl, ?_, by rw [hblocks, List.length_map], hblocks⟩
  by_cases hspilled : code.spilledIn pool = []
  · exact .inl (hkept hspilled)
  · exact .inr (hgrown hspilled)

/-- Two registers in distant slots: a store in front of a label, a load behind one, and loads on
both sides of a terminator leave the three blocks what they are. -/
theorem compile_blocks_around_call :
    let code : Code := [.instr .enter [.number 16], .instr .li [.register "a", .number 0],
      .label "top", .instr .add [.register "b", .register "b", .register "fp"],
      .instr .jalr [.register "ra", .register "a", .number 0],
      .instr .cmpi [.register "b", .number 1], .instr .beq [.label "top"]]
    let a : Access := ⟨"a", 0, 0, -17⟩
    let b : Access := ⟨"b", 1, 0, -18⟩
    let enter : Group := .ofLine (.instr .enter [.number 18])
    let set : Group := ⟨[], .instr .li [.register "r0", .number 0], [a]⟩
    let top : Group := .ofLine (.label "top")
    let sum : Group := ⟨[b], .instr .add [.register "r0", .register "r0", .register "fp"], [b]⟩
    let call : Group := ⟨[a], .instr .jalr [.register "ra", .register "r0", .number 0], []⟩
    let test : Group := ⟨[b], .instr .cmpi [.register "r0", .number 1], []⟩
    let back : Group := .ofLine (.instr .beq [.label "top"])
    let out := Code.ofGroups [enter, set, top, sum, call, test, back]
    (code.LinksPinned ∧ (code.compile ⟨1, true⟩).result = .ok out) ∧
    out.partition.value = [⟨0, .ofGroups [enter, set]⟩, ⟨6, .ofGroups [top, sum, call]⟩,
      ⟨21, .ofGroups [test, back]⟩] := by
  intro code a b enter set top sum call test back out
  have hlinks : code.LinksPinned := by
    intro operands hmem name hhead
    simp only [code, List.mem_cons, reduceCtorEq, Line.instr.injEq, true_and, false_and, false_or,
      List.not_mem_nil, or_false] at hmem
    subst hmem
    cases hhead
    decide
  have hok : (code.compile ⟨1, true⟩).result = .ok out := by decide +kernel
  have hgroups : (code.compileGroups ⟨1, true⟩).result =
      .ok [enter, set, top, sum, call, test, back] := by decide +kernel
  obtain ⟨groups, hgroups', _, _, _, hblocks⟩ := compile_blocks hlinks hok
  cases hgroups.symm.trans hgroups'
  exact ⟨⟨hlinks, hok⟩, hblocks.trans (by decide +kernel)⟩

end TurtleAlloc
