import Mathlib
import TurtleAlloc.Spill

/-!
# The spill code around a line

* `Access.standIn` — the name that a line uses for a register once some registers are accessed
  through temporaries.
* `Group.Spills` — the group of a line after some spilled registers are treated: one load for each
  of them that the line reads, one store for each that it writes, the temporaries in their order,
  and the line itself under `standIn`.
* `Exceeds` — the line needs more temporaries than there are.
* `Line.spill_outcome` — treating a line gives such a group, or fails for a reason that is stated.
* `Code.spill_ok`, `Code.spill_error` — the same for a stream, line by line.
-/

namespace TurtleAlloc

/-! ## Standing in for a register -/

namespace Access

/-- The temporary through which a register is accessed; the register itself if there is none. -/
def standIn (accesses : List Access) (name : String) : String :=
  match accesses.find? fun access => access.register == name with
  | some access => access.temporaryName
  | none => name

variable {accesses before after : List Access} {access : Access} {name : String}

theorem standIn_eq_self (h : ∀ a ∈ accesses, a.register ≠ name) : standIn accesses name = name := by
  have hnone : accesses.find? (fun a => a.register == name) = none := by
    rw [List.find?_eq_none]
    intro a ha heq
    exact h a ha (beq_iff_eq.mp heq)
  rw [standIn, hnone]

/-- A name that is not its own stand-in is the register of an access, by its first access. -/
theorem standIn_cases (accesses : List Access) (name : String) :
    ((∀ a ∈ accesses, a.register ≠ name) ∧ standIn accesses name = name) ∨
    ∃ a ∈ accesses, a.register = name ∧ standIn accesses name = a.temporaryName := by
  cases hfind : accesses.find? (fun a => a.register == name) with
  | none =>
    left
    refine ⟨fun a ha heq => ?_, by rw [standIn, hfind]⟩
    rw [List.find?_eq_none] at hfind
    exact hfind a ha (beq_iff_eq.mpr heq)
  | some a =>
    right
    have hp := List.find?_some hfind
    exact ⟨a, List.mem_of_find?_eq_some hfind, beq_iff_eq.mp hp, by rw [standIn, hfind]⟩

theorem standIn_insert (h : ∀ a ∈ before, a.register ≠ access.register) (name : String) :
    standIn (before ++ access :: after) name =
      if name = access.register then access.temporaryName else standIn (before ++ after) name := by
  unfold standIn
  rw [List.find?_append, List.find?_append, List.find?_cons]
  split_ifs with hname
  · have hnone : before.find? (fun a => a.register == name) = none := by
      rw [List.find?_eq_none]
      intro a ha heq
      exact h a ha ((beq_iff_eq.mp heq).trans hname)
    rw [hnone, beq_iff_eq.mpr hname.symm]
    rfl
  · have hne : (access.register == name) = false := beq_eq_false_iff_ne.mpr (Ne.symm hname)
    rw [hne]

theorem standIn_insert_known (h : ∃ a ∈ before, a.register = access.register) (name : String) :
    standIn (before ++ access :: after) name = standIn (before ++ after) name := by
  obtain ⟨a, ha, hregister⟩ := h
  unfold standIn
  rw [List.find?_append, List.find?_append, List.find?_cons]
  by_cases hname : access.register = name
  · have hsome : (before.find? (fun a => a.register == name)).isSome := by
      rw [List.find?_isSome]
      exact ⟨a, ha, beq_iff_eq.mpr (hregister.trans hname)⟩
    obtain ⟨b, hb⟩ := Option.isSome_iff_exists.mp hsome
    rw [hb]
    rfl
  · rw [beq_eq_false_iff_ne.mpr hname]

/-- A name that no access has, as a register or as a temporary, stands for itself alone. -/
theorem standIn_eq_iff {fresh : String} (hregister : ∀ a ∈ accesses, a.register ≠ fresh)
    (htemporary : ∀ a ∈ accesses, a.temporaryName ≠ fresh) :
    standIn accesses name = fresh ↔ name = fresh := by
  rcases standIn_cases accesses name with ⟨_, h⟩ | ⟨a, ha, rfl, h⟩
  · rw [h]
  · rw [h]
    exact ⟨fun heq => absurd heq (htemporary a ha), fun heq => absurd heq (hregister a ha)⟩

end Access

/-! ## Treating one register -/

namespace Draft

variable (frame : Frame) (temporaries : List Nat) (index : Nat) (draft : Draft)

/-- The draft with one more load. -/
def withLoad (access : Access) (unused : List Nat) : Draft where
  group := {
    loads := draft.group.loads ++ [access]
    line := draft.group.line.rename access.register access.temporaryName
    stores := draft.group.stores }
  unused

/-- The draft with one more store. -/
def withStore (access : Access) : Draft where
  group := {
    loads := draft.group.loads
    line := draft.group.line.rename access.register access.temporaryName
    stores := access :: draft.group.stores }
  unused := draft.unused

theorem result_load (register : String) (slot : Nat) :
    (draft.load frame index register slot).result =
      match draft.unused, frame.slotOffset? slot with
      | [], _ => .error .outOfTemporaries
      | _ :: _, none => .error .overflow
      | temporary :: unused, some offset =>
        .ok (draft.withLoad ⟨register, slot, temporary, offset⟩ unused) := by
  unfold load Frame.reach
  cases draft.unused <;> cases frame.slotOffset? slot <;> rfl

theorem result_store (register : String) (slot : Nat) (choice : List Nat) :
    (draft.store frame index register slot choice).result =
      match choice, frame.slotOffset? slot with
      | [], _ => .error .outOfTemporaries
      | _ :: _, none => .error .overflow
      | temporary :: _, some offset =>
        .ok (draft.withStore ⟨register, slot, temporary, offset⟩) := by
  unfold store Frame.reach
  cases choice <;> cases frame.slotOffset? slot <;> rfl

theorem result_spill_of_slot {interval : Interval} {slot : Nat} (h : interval.slot = some slot) :
    (draft.spill frame temporaries index interval).result =
      if interval.register ∈ draft.group.line.sources then
        match draft.unused, frame.slotOffset? slot with
        | [], _ => .error .outOfTemporaries
        | _ :: _, none => .error .overflow
        | temporary :: unused, some offset =>
          let access : Access := ⟨interval.register, slot, temporary, offset⟩
          if interval.register ∈ draft.group.line.destinations then
            .ok ((draft.withLoad access unused).withStore access)
          else .ok (draft.withLoad access unused)
      else if interval.register ∈ draft.group.line.destinations then
        match temporaries, frame.slotOffset? slot with
        | [], _ => .error .outOfTemporaries
        | _ :: _, none => .error .overflow
        | temporary :: _, some offset =>
          .ok (draft.withStore ⟨interval.register, slot, temporary, offset⟩)
      else .ok draft := by
  unfold spill
  rw [h]
  simp only [List.contains_iff_mem]
  by_cases hreads : interval.register ∈ draft.group.line.sources <;>
    by_cases hwrites : interval.register ∈ draft.group.line.destinations <;>
    simp only [hreads, hwrites, if_true, if_false, Attempt.result_bind]
  · rw [result_load]
    simp only [result_store]
    cases draft.unused <;> cases frame.slotOffset? slot <;> rfl
  · rw [result_load]
    cases draft.unused <;> cases frame.slotOffset? slot <;> rfl
  · exact draft.result_store frame index interval.register slot temporaries
  · rfl

end Draft

/-! ## The frame of a stream -/

namespace Code

/-- Whether a stream opens a frame. -/
def opensWithEnter : Code → Bool
  | .instr .enter _ :: _ => true
  | _ => false

/-- The frame that a stream opens. -/
def frame : Code → Frame
  | .instr .enter operands :: _ => enteredFrame operands
  | _ => ⟨0⟩

/-- The stream with a frame of another size. -/
def grow (size : Int32) (code : Code) : Code :=
  code.set 0 (.instr .enter [.number size])

/-- What a stream opens does not depend on the registers of its first line. -/
theorem opensWithEnter_cons_mapRegisters (f : String → String) (line : Line) (rest rest' : Code) :
    opensWithEnter (line.mapRegisters f :: rest') = opensWithEnter (line :: rest) := by
  cases line with
  | label name => rfl
  | instr opcode operands => cases opcode <;> rfl

theorem frame_cons_mapRegisters (f : String → String) (line : Line) (rest rest' : Code) :
    frame (line.mapRegisters f :: rest') = frame (line :: rest) := by
  cases line with
  | label name => rfl
  | instr opcode operands =>
    cases opcode <;> try rfl
    rcases operands with _ | ⟨operand, others⟩
    · rfl
    · cases operand <;> rfl

theorem lastSlot_spec (spilled : List Interval) :
    (lastSlot spilled = 0 ∨ ∃ i ∈ spilled, i.slot = some (lastSlot spilled)) ∧
      ∀ i ∈ spilled, ∀ slot, i.slot = some slot → slot ≤ lastSlot spilled := by
  have hmax : (0 :: spilled.filterMap Interval.slot).max? = some (lastSlot spilled) := rfl
  rw [List.max?_eq_some_iff] at hmax
  constructor
  · rcases List.mem_cons.mp hmax.1 with h | h
    · exact .inl h
    · exact .inr (List.mem_filterMap.mp h)
  · intro i hi slot hslot
    exact hmax.2 slot (List.mem_cons_of_mem _ (List.mem_filterMap.mpr ⟨i, hi, hslot⟩))

theorem lastSlot_lt_of_forall {spilled : List Interval} {bound : Nat} (hspilled : spilled ≠ [])
    (hslot : ∀ i ∈ spilled, ∃ slot < bound, i.slot = some slot) : lastSlot spilled < bound := by
  rcases (lastSlot_spec spilled).1 with hzero | ⟨i, hi, hlast⟩
  · obtain ⟨i, hi⟩ := List.exists_mem_of_ne_nil spilled hspilled
    obtain ⟨slot, hlt, _⟩ := hslot i hi
    omega
  · obtain ⟨slot, hlt, hslot⟩ := hslot i hi
    rw [hlast] at hslot
    cases hslot
    exact hlt

end Code

/-! ## Treating several registers -/

/-- The group of `line` after the registers of `treated` are treated, with the temporaries that no
load uses yet. -/
structure Group.Spills (frame : Frame) (temporaries : List Nat) (treated : List Interval)
    (line : Line) (unused : List Nat) (group : Group) : Prop where
  line_eq : group.line = line.mapRegisters (Access.standIn (group.loads ++ group.stores))
  loads : group.loads.map Access.register =
    (treated.map Interval.register).filter (· ∈ line.sources)
  stores : (group.stores.map Access.register).reverse =
    (treated.map Interval.register).filter (· ∈ line.destinations)
  temporaries_eq : group.loads.map Access.temporary ++ unused = temporaries
  temporary_mem : ∀ a ∈ group.loads ++ group.stores, a.temporary ∈ temporaries
  reaches : ∀ a ∈ group.loads ++ group.stores, ∃ i ∈ treated, i.register = a.register ∧
    i.slot = some a.slot ∧ frame.slotOffset? a.slot = some a.offset
  /-- A register that is loaded and stored has one temporary for both. -/
  standIn_eq : ∀ a ∈ group.loads ++ group.stores,
    Access.standIn (group.loads ++ group.stores) a.register = a.temporaryName

/-- A line needs more temporaries than there are for the registers of some intervals. -/
def Exceeds (temporaries : List Nat) (treated : List Interval) (line : Line) : Prop :=
  temporaries.length < (treated.filter fun i => i.register ∈ line.sources).length ∨
    temporaries = [] ∧ ∃ i ∈ treated, i.register ∈ line.destinations

/-- What is known of the treatment of a line, whether it succeeds or fails. -/
def SpillOutcome (frame : Frame) (temporaries : List Nat) (treated : List Interval) (line : Line) :
    Except SpillError Draft → Prop
  | .ok draft => draft.group.Spills frame temporaries treated line draft.unused
  | .error .outOfTemporaries => Exceeds temporaries treated line
  | .error .missingSpillSlot => ∃ i ∈ treated, i.slot = none
  | .error .overflow =>
    ∃ i ∈ treated, ∃ slot, i.slot = some slot ∧ frame.slotOffset? slot = none
  | .error .missingLeadingEnter => False

variable {frame : Frame} {temporaries unused : List Nat} {treated : List Interval} {line : Line}

theorem Group.Spills.ofLine (frame : Frame) (temporaries : List Nat) (line : Line) :
    (Group.ofLine line).Spills frame temporaries [] line temporaries := by
  refine ⟨line.mapRegisters_id.symm, ?_, ?_, ?_, ?_, ?_, ?_⟩ <;> simp [Group.ofLine]

theorem SpillOutcome.append_error {error : SpillError}
    (h : SpillOutcome frame temporaries treated line (.error error)) (rest : List Interval) :
    SpillOutcome frame temporaries (treated ++ rest) line (.error error) := by
  cases error with
  | missingLeadingEnter => exact h
  | missingSpillSlot =>
    obtain ⟨i, hi, hslot⟩ := h
    exact ⟨i, List.mem_append_left _ hi, hslot⟩
  | overflow =>
    obtain ⟨i, hi, hslot⟩ := h
    exact ⟨i, List.mem_append_left _ hi, hslot⟩
  | outOfTemporaries =>
    rcases h with h | ⟨hnil, i, hi, hwrites⟩
    · left
      rw [List.filter_append, List.length_append]
      exact Nat.lt_of_lt_of_le h (Nat.le_add_right ..)
    · exact .inr ⟨hnil, i, List.mem_append_left _ hi, hwrites⟩

namespace Group.Spills

variable {group : Group} {access : Access} {interval : Interval}

theorem register_ne (h : group.Spills frame temporaries treated line unused)
    (hfresh : interval.register ∉ treated.map Interval.register) :
    ∀ a ∈ group.loads ++ group.stores, a.register ≠ interval.register := by
  intro a ha heq
  obtain ⟨i, hi, hregister, _⟩ := h.reaches a ha
  exact hfresh (List.mem_map.mpr ⟨i, hi, hregister.trans heq⟩)

theorem temporaryName_ne (h : group.Spills frame temporaries treated line unused)
    (htemporary : ∀ t ∈ temporaries, Register.physical t ≠ interval.register) :
    ∀ a ∈ group.loads ++ group.stores, a.temporaryName ≠ interval.register :=
  fun a ha => htemporary a.temporary (h.temporary_mem a ha)

/-- Half-way through, the line reads a register not treated yet exactly if it read it at first. -/
theorem mem_sources_iff (h : group.Spills frame temporaries treated line unused)
    (hfresh : interval.register ∉ treated.map Interval.register)
    (htemporary : ∀ t ∈ temporaries, Register.physical t ≠ interval.register) :
    interval.register ∈ group.line.sources ↔ interval.register ∈ line.sources := by
  have hiff : ∀ name, Access.standIn (group.loads ++ group.stores) name = interval.register ↔
      name = interval.register := fun name =>
    Access.standIn_eq_iff (h.register_ne hfresh) (h.temporaryName_ne htemporary)
  rw [h.line_eq, Line.sources_mapRegisters, List.mem_map]
  simp [hiff]

theorem mem_destinations_iff (h : group.Spills frame temporaries treated line unused)
    (hfresh : interval.register ∉ treated.map Interval.register)
    (htemporary : ∀ t ∈ temporaries, Register.physical t ≠ interval.register) :
    interval.register ∈ group.line.destinations ↔ interval.register ∈ line.destinations := by
  have hiff : ∀ name, Access.standIn (group.loads ++ group.stores) name = interval.register ↔
      name = interval.register := fun name =>
    Access.standIn_eq_iff (h.register_ne hfresh) (h.temporaryName_ne htemporary)
  rw [h.line_eq, Line.destinations_mapRegisters, List.mem_map]
  simp [hiff]

/-- One more register is treated: it is loaded if the line reads it and stored if the line writes
it, in both cases by way of the same temporary. -/
theorem insert {loads stores : List Access} {later : List Nat}
    (h : group.Spills frame temporaries treated line unused)
    (hfresh : interval.register ∉ treated.map Interval.register)
    (htemporary : ∀ t ∈ temporaries, Register.physical t ≠ interval.register)
    (hregister : access.register = interval.register) (hslot : interval.slot = some access.slot)
    (hoffset : frame.slotOffset? access.slot = some access.offset)
    (hmem : access.temporary ∈ temporaries)
    (hloads : loads = if interval.register ∈ line.sources then [access] else [])
    (hstores : stores = if interval.register ∈ line.destinations then [access] else [])
    (hsome : loads ≠ [] ∨ stores ≠ [])
    (hunused : loads.map Access.temporary ++ later = unused) :
    Group.Spills frame temporaries (treated ++ [interval]) line later
      ⟨group.loads ++ loads, group.line.rename access.register access.temporaryName,
        stores ++ group.stores⟩ := by
  have hne : ∀ a ∈ group.loads ++ group.stores, a.register ≠ access.register :=
    fun a ha => hregister ▸ h.register_ne hfresh a ha
  have hbefore : ∀ a ∈ group.loads, a.register ≠ access.register :=
    fun a ha => hne a (List.mem_append_left _ ha)
  have hcases : ∀ a ∈ loads ++ stores, a = access := by
    intro a ha
    rw [hloads, hstores] at ha
    split_ifs at ha <;> simp_all
  have hstand : ∀ name, Access.standIn ((group.loads ++ loads) ++ (stores ++ group.stores)) name =
      if name = access.register then access.temporaryName
      else Access.standIn (group.loads ++ group.stores) name := by
    intro name
    rw [← Access.standIn_insert hbefore]
    split_ifs at hloads hstores
    · subst hloads hstores
      rw [List.singleton_append, Access.standIn_insert_known ⟨access, by simp, rfl⟩]
      simp
    · subst hloads hstores
      simp
    · subst hloads hstores
      simp
    · subst hloads hstores
      simp at hsome
  constructor
  case line_eq =>
    show group.line.rename _ _ = _
    rw [h.line_eq, Line.rename, Line.mapRegisters_mapRegisters]
    congr 1
    funext name
    rw [hstand]
    have hiff : Access.standIn (group.loads ++ group.stores) name = access.register ↔
        name = access.register :=
      Access.standIn_eq_iff hne (hregister ▸ h.temporaryName_ne htemporary)
    by_cases heq : name = access.register
    · rw [if_pos heq, if_pos (hiff.mpr heq)]
    · rw [if_neg heq, if_neg (mt hiff.mp heq)]
  case loads =>
    rw [List.map_append, h.loads, List.map_append, List.filter_append, hloads]
    split_ifs with hreads <;> simp [hreads, hregister]
  case stores =>
    rw [List.map_append, List.reverse_append, h.stores, List.map_append, List.filter_append,
      hstores]
    split_ifs with hwrites <;> simp [hwrites, hregister]
  case temporaries_eq =>
    rw [List.map_append, List.append_assoc, hunused]
    exact h.temporaries_eq
  case temporary_mem =>
    intro a ha
    by_cases hold : a ∈ group.loads ++ group.stores
    · exact h.temporary_mem a hold
    · rw [hcases a (by simp_all)]
      exact hmem
  case reaches =>
    intro a ha
    by_cases hold : a ∈ group.loads ++ group.stores
    · obtain ⟨i, hi, hreach⟩ := h.reaches a hold
      exact ⟨i, List.mem_append_left _ hi, hreach⟩
    · rw [hcases a (by simp_all)]
      exact ⟨interval, by simp, hregister.symm, hslot, hoffset⟩
  case standIn_eq =>
    intro a ha
    rw [hstand]
    by_cases hold : a ∈ group.loads ++ group.stores
    · rw [if_neg (hne a hold)]
      exact h.standIn_eq a hold
    · rw [hcases a (by simp_all), if_pos rfl]

theorem skip (h : group.Spills frame temporaries treated line unused)
    (hreads : interval.register ∉ line.sources) (hwrites : interval.register ∉ line.destinations) :
    group.Spills frame temporaries (treated ++ [interval]) line unused := by
  refine { h with loads := ?_, stores := ?_, reaches := ?_ }
  · simp [h.loads, hreads]
  · simp [h.stores, hwrites]
  · intro a ha
    obtain ⟨i, hi, hreach⟩ := h.reaches a ha
    exact ⟨i, List.mem_append_left _ hi, hreach⟩

theorem length_loads (h : group.Spills frame temporaries treated line unused) :
    group.loads.length = (treated.filter fun i => i.register ∈ line.sources).length := by
  have hlength := congrArg List.length h.loads
  rw [List.filter_map, List.length_map, List.length_map] at hlength
  exact hlength

end Group.Spills

/-- **Treating one more register.** -/
theorem SpillOutcome.spill (index : Nat) {draft : Draft} {interval : Interval}
    (h : draft.group.Spills frame temporaries treated line draft.unused)
    (hfresh : interval.register ∉ treated.map Interval.register)
    (htemporary : ∀ t ∈ temporaries, Register.physical t ≠ interval.register) :
    SpillOutcome frame temporaries (treated ++ [interval]) line
      (draft.spill frame temporaries index interval).result := by
  cases hslot : interval.slot with
  | none =>
    have herror : (draft.spill frame temporaries index interval).result =
        .error .missingSpillSlot := by
      unfold Draft.spill
      rw [hslot]
      rfl
    rw [herror]
    exact ⟨interval, by simp, hslot⟩
  | some slot =>
    rw [draft.result_spill_of_slot frame temporaries index hslot]
    simp only [h.mem_sources_iff hfresh htemporary, h.mem_destinations_iff hfresh htemporary]
    have hoverflow : frame.slotOffset? slot = none →
        SpillOutcome frame temporaries (treated ++ [interval]) line (.error .overflow) :=
      fun hnone => ⟨interval, by simp, slot, hslot, hnone⟩
    -- the new group, in whatever roles the register has
    have hinsert : ∀ temporary offset loads stores later, temporary ∈ temporaries →
        frame.slotOffset? slot = some offset →
        let access : Access := ⟨interval.register, slot, temporary, offset⟩
        (loads = if interval.register ∈ line.sources then [access] else []) →
        (stores = if interval.register ∈ line.destinations then [access] else []) →
        (loads ≠ [] ∨ stores ≠ []) → loads.map Access.temporary ++ later = draft.unused →
        Group.Spills frame temporaries (treated ++ [interval]) line later
          ⟨draft.group.loads ++ loads,
            draft.group.line.rename access.register access.temporaryName,
            stores ++ draft.group.stores⟩ :=
      fun _ _ _ _ _ hmem hoffset hloads hstores hsome hunused =>
        h.insert hfresh htemporary rfl hslot hoffset hmem hloads hstores hsome hunused
    by_cases hreads : interval.register ∈ line.sources
    · rw [if_pos hreads]
      cases hunused : draft.unused with
      | nil =>
        have hlength := congrArg List.length h.temporaries_eq
        rw [hunused, List.append_nil, List.length_map, h.length_loads] at hlength
        left
        rw [List.filter_append, List.length_append]
        simp [hreads, hlength]
      | cons temporary unused =>
        cases hoffset : frame.slotOffset? slot with
        | none => exact hoverflow hoffset
        | some offset =>
          have hmem : temporary ∈ temporaries := by
            rw [← h.temporaries_eq, hunused]
            simp
          by_cases hwrites : interval.register ∈ line.destinations
          · simp only [hwrites, if_true]
            have hboth := hinsert temporary offset [_] [_] unused hmem hoffset
              (if_pos hreads).symm (if_pos hwrites).symm (.inl (by simp)) hunused.symm
            rw [← Line.rename_rename] at hboth
            exact hboth
          · simp only [hwrites, if_false]
            exact hinsert temporary offset [_] [] unused hmem hoffset (if_pos hreads).symm
              (if_neg hwrites).symm (.inl (by simp)) hunused.symm
    · rw [if_neg hreads]
      by_cases hwrites : interval.register ∈ line.destinations
      · rw [if_pos hwrites]
        cases temporaries with
        | nil => exact .inr ⟨rfl, interval, by simp, hwrites⟩
        | cons temporary others =>
          cases hoffset : frame.slotOffset? slot with
          | none => exact hoverflow hoffset
          | some offset =>
            have hstore := hinsert temporary offset [] [_] draft.unused (by simp) hoffset
              (if_neg hreads).symm (if_pos hwrites).symm (.inr (by simp)) rfl
            rw [List.append_nil] at hstore
            exact hstore
      · rw [if_neg hwrites]
        exact h.skip hreads hwrites

/-! ## A line and a stream -/

theorem SpillOutcome.foldlM (index : Nat) {rest : List Interval} {draft : Draft}
    (h : draft.group.Spills frame temporaries treated line draft.unused)
    (hnodup : ((treated ++ rest).map Interval.register).Nodup)
    (htemporary : ∀ i ∈ rest, ∀ t ∈ temporaries, Register.physical t ≠ i.register) :
    SpillOutcome frame temporaries (treated ++ rest) line
      (rest.foldlM (fun draft i => (draft.spill frame temporaries index i).result) draft) := by
  induction rest generalizing treated draft with
  | nil =>
    rw [List.append_nil]
    exact h
  | cons interval rest ih =>
    have hfresh : interval.register ∉ treated.map Interval.register := by
      rw [List.map_append, List.nodup_append] at hnodup
      exact fun hmem => hnodup.2.2 _ hmem _ List.mem_cons_self rfl
    have hstep := SpillOutcome.spill index h hfresh (htemporary interval List.mem_cons_self)
    rw [List.append_cons] at hnodup ⊢
    rw [List.foldlM_cons]
    cases hresult : (draft.spill frame temporaries index interval).result with
    | error error =>
      rw [hresult] at hstep
      exact hstep.append_error rest
    | ok next =>
      rw [hresult] at hstep
      exact ih hstep hnodup fun i hi => htemporary i (List.mem_cons_of_mem _ hi)

/-- A group was made, so there were enough temporaries. -/
theorem Group.Spills.not_exceeds {group : Group}
    (h : group.Spills frame temporaries treated line unused) :
    ¬ Exceeds temporaries treated line := by
  rintro (hlt | ⟨hnil, i, hi, hwrites⟩)
  · have hlength := congrArg List.length h.temporaries_eq
    rw [List.length_append, List.length_map, h.length_loads] at hlength
    omega
  · have hmem : i.register ∈ (group.stores.map Access.register).reverse := by
      rw [h.stores, List.mem_filter]
      exact ⟨List.mem_map_of_mem hi, by simpa using hwrites⟩
    obtain ⟨a, ha, _⟩ := List.mem_map.mp (List.mem_reverse.mp hmem)
    have htemporary := h.temporary_mem a (List.mem_append_right _ ha)
    rw [hnil] at htemporary
    cases htemporary

/-- The spilled registers are told apart, and no temporary is one of them. -/
structure Spillable (spilled : List Interval) (temporaries : List Nat) : Prop where
  nodup : (spilled.map Interval.register).Nodup
  temporary_ne : ∀ i ∈ spilled, ∀ t ∈ temporaries, Register.physical t ≠ i.register

variable {spilled : List Interval} {group : Group} {error : SpillError}

/-- The treatment of a line, without what it tells. -/
def Line.draft (frame : Frame) (spilled : List Interval) (temporaries : List Nat) (index : Nat)
    (line : Line) : Except SpillError Draft :=
  (spilled.filter fun interval => interval.contains index).foldlM
    (fun draft interval => (draft.spill frame temporaries index interval).result)
    (Draft.ofLine temporaries line)

theorem Line.result_spill (frame : Frame) (spilled : List Interval) (temporaries : List Nat)
    (index : Nat) (line : Line) :
    (line.spill frame spilled temporaries index).result =
      (line.draft frame spilled temporaries index).map Draft.group := by
  unfold Line.spill
  rw [Attempt.result_bind, Attempt.result_foldlM, ← Line.draft]
  cases line.draft frame spilled temporaries index <;> rfl

theorem Line.spill_outcome (frame : Frame) (index : Nat) (line : Line)
    (h : Spillable spilled temporaries) :
    SpillOutcome frame temporaries (spilled.filter fun i => i.contains index) line
      (line.draft frame spilled temporaries index) := by
  have hsub : (spilled.filter fun i => i.contains index).Sublist spilled := List.filter_sublist
  have hstart : (Draft.ofLine temporaries line).group.Spills frame temporaries [] line
      (Draft.ofLine temporaries line).unused := Group.Spills.ofLine frame temporaries line
  refine SpillOutcome.foldlM index hstart ?_ ?_
  · exact (hsub.map _).nodup h.nodup
  · exact fun i hi => h.temporary_ne i (hsub.subset hi)

theorem Line.spills_of_ok {index : Nat} (h : Spillable spilled temporaries)
    (hok : (line.spill frame spilled temporaries index).result = .ok group) :
    ∃ unused, group.Spills frame temporaries (spilled.filter fun i => i.contains index) line
      unused := by
  have houtcome := Line.spill_outcome frame index line h
  rw [Line.result_spill] at hok
  cases hdraft : line.draft frame spilled temporaries index with
  | error error =>
    rw [hdraft] at hok
    cases hok
  | ok draft =>
    rw [hdraft] at hok houtcome
    cases hok
    exact ⟨draft.unused, houtcome⟩

theorem Line.outcome_of_error {index : Nat} (h : Spillable spilled temporaries)
    (herror : (line.spill frame spilled temporaries index).result = .error error) :
    SpillOutcome frame temporaries (spilled.filter fun i => i.contains index) line
      (.error error) := by
  have houtcome := Line.spill_outcome frame index line h
  rw [Line.result_spill] at herror
  cases hdraft : line.draft frame spilled temporaries index with
  | error error' =>
    rw [hdraft] at herror houtcome
    cases herror
    exact houtcome
  | ok draft =>
    rw [hdraft] at herror
    cases herror

namespace Code

/-- The groups of a stream are the groups of its lines. -/
theorem spillFrom_ok {code : Code} {groups : List Group} {start : Nat}
    (h : (code.spillFrom frame spilled temporaries start).result = .ok groups) :
    groups.length = code.length ∧ ∀ (index : Nat) (line : Line), code[index]? = some line →
      ∃ group, groups[index]? = some group ∧
        (line.spill frame spilled temporaries (start + index)).result = .ok group := by
  induction code generalizing start groups with
  | nil =>
    cases h
    exact ⟨rfl, fun index line hget => by simp at hget⟩
  | cons first rest ih =>
    unfold spillFrom at h
    simp only [Attempt.result_bind] at h
    cases hfirst : (first.spill frame spilled temporaries start).result with
    | error error =>
      rw [hfirst] at h
      cases h
    | ok group =>
      rw [hfirst] at h
      cases hrest : (spillFrom frame spilled temporaries (start + 1) rest).result with
      | error error =>
        simp only [hrest] at h
        cases h
      | ok later =>
        simp only [hrest] at h
        cases h
        obtain ⟨hlength, hlines⟩ := ih hrest
        refine ⟨by simp [hlength], ?_⟩
        intro index line hget
        cases index with
        | zero =>
          cases hget
          exact ⟨group, rfl, hfirst⟩
        | succ index =>
          obtain ⟨group', hgroup, hspill⟩ := hlines index line hget
          exact ⟨group', hgroup, by rw [← hspill, Nat.add_right_comm, Nat.add_assoc]⟩

theorem spillFrom_error {code : Code} {start : Nat}
    (h : (code.spillFrom frame spilled temporaries start).result = .error error) :
    ∃ (index : Nat) (line : Line), code[index]? = some line ∧
      (line.spill frame spilled temporaries (start + index)).result = .error error := by
  induction code generalizing start with
  | nil => cases h
  | cons first rest ih =>
    unfold spillFrom at h
    simp only [Attempt.result_bind] at h
    cases hfirst : (first.spill frame spilled temporaries start).result with
    | error error' =>
      rw [hfirst] at h
      cases h
      exact ⟨0, first, rfl, hfirst⟩
    | ok group =>
      rw [hfirst] at h
      cases hrest : (spillFrom frame spilled temporaries (start + 1) rest).result with
      | ok later =>
        simp only [hrest] at h
        cases h
      | error error' =>
        simp only [hrest] at h
        cases h
        obtain ⟨index, line, hget, hspill⟩ := ih hrest
        exact ⟨index + 1, line, hget, by rw [← hspill, Nat.add_right_comm, Nat.add_assoc]⟩

theorem result_spill {code : Code} (hspilled : spilled ≠ []) :
    (code.spill spilled temporaries).result =
      if code.opensWithEnter then
        match code.frame.sizeWithSlots? (lastSlot spilled) with
        | none => .error .overflow
        | some size => (spillFrom code.frame spilled temporaries 0 (code.grow size)).result
      else .error .missingLeadingEnter := by
  unfold spill opensWithEnter frame grow
  rw [if_neg (by simpa using hspilled)]
  split
  · rename_i operands rest
    simp only [if_true, List.set_cons_zero]
    cases (enteredFrame operands).sizeWithSlots? (lastSlot spilled) <;> rfl
  · rw [if_neg (by simp)]
    rfl

/-- **The groups of a spilled stream**: its leading `ENTER` is made larger, and each line has the
spill code of the registers whose intervals contain it. -/
theorem spill_ok {code : Code} {groups : List Group} (hspilled : spilled ≠ [])
    (hspillable : Spillable spilled temporaries)
    (h : (code.spill spilled temporaries).result = .ok groups) :
    code.opensWithEnter ∧ ∃ size, code.frame.sizeWithSlots? (lastSlot spilled) = some size ∧
      groups.length = code.length ∧
      ∀ (index : Nat) (line : Line),
        (code.grow size)[index]? = some line → ∃ group unused, groups[index]? = some group ∧
          group.Spills code.frame temporaries (spilled.filter fun i => i.contains index) line
            unused := by
  rw [result_spill hspilled] at h
  split at h
  · rename_i henter
    split at h
    · cases h
    · rename_i size hsize
      obtain ⟨hlength, hlines⟩ := spillFrom_ok h
      refine ⟨henter, size, hsize, by rw [hlength, grow, List.length_set], ?_⟩
      intro index line hget
      obtain ⟨group, hgroup, hspill⟩ := hlines index line hget
      rw [Nat.zero_add] at hspill
      obtain ⟨unused, hspills⟩ := Line.spills_of_ok hspillable hspill
      exact ⟨group, unused, hgroup, hspills⟩
  · cases h

/-- Why the spill code of a stream cannot be written. -/
theorem spill_error {code : Code} (hspilled : spilled ≠ [])
    (hspillable : Spillable spilled temporaries)
    (h : (code.spill spilled temporaries).result = .error error) :
    (code.opensWithEnter = false ∧ error = .missingLeadingEnter) ∨
    (code.opensWithEnter = true ∧
      code.frame.sizeWithSlots? (lastSlot spilled) = none ∧ error = .overflow) ∨
    (code.opensWithEnter = true ∧ ∃ (index : Nat) (line : Line) (size : Int32),
      (code.grow size)[index]? = some line ∧
      SpillOutcome code.frame temporaries (spilled.filter fun i => i.contains index) line
        (.error error)) := by
  rw [result_spill hspilled] at h
  split at h
  · rename_i henter
    split at h
    · rename_i hsize
      cases h
      exact .inr (.inl ⟨henter, hsize, rfl⟩)
    · rename_i size hsize
      obtain ⟨index, line, hget, hspill⟩ := spillFrom_error h
      rw [Nat.zero_add] at hspill
      exact .inr (.inr ⟨henter, index, line, size, hget, Line.outcome_of_error hspillable hspill⟩)
  · rename_i henter
    cases h
    exact .inl ⟨by simpa using henter, rfl⟩

end Code

end TurtleAlloc
