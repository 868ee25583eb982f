import Mathlib
import TurtleAlloc.Proofs.Liveness
import TurtleAlloc.Proofs.Spill.Groups

/-!
# The registers around a spilled line

Nothing is assumed here about the names of registers: a spilled register may have the name of a
temporary.

* `Draft.Treats`, `Draft.spill_cases` — what treating one register does to a line and to the code
  around it.
* `Line.spill_induction` — induction over the registers that are treated.
* `Code.lines_of_spill` — the groups of a stream, line by line.
* `Group.Reaches` — spill code moves the slots of spilled intervals through the temporaries;
  `Code.spill_reaches` says so of a stream.
* `Register.IsMachine`, `Line.HasRoles` — the registers of the machine, and lines that read or
  write every register they name.
* `Line.Resolvable`, `Draft.Resolves` — each name of a line is a register of the machine or a
  spilled register that is still to be treated; `Line.spill_resolves` says that none is left in the
  end.
-/

namespace TurtleAlloc

variable {frame : Frame} {spilled pending : List Interval} {temporaries : List Nat} {index : Nat}
  {interval : Interval} {draft next : Draft} {line : Line} {group : Group} {code : Code}
  {groups : List Group} {registers : Nat} {name : String}

/-! ## One register -/

/-- The access moves the slot of the interval. -/
structure Access.Serves (frame : Frame) (interval : Interval) (access : Access) : Prop where
  register : access.register = interval.register
  slot : interval.slot = some access.slot
  offset : frame.slotOffset? access.slot = some access.offset

/-- The drafts that treating a register can lead to, by what the line does to that register. -/
inductive Draft.Treats (frame : Frame) (temporaries : List Nat) (interval : Interval)
    (draft : Draft) : Draft → Prop
  | idle (hreads : interval.register ∉ draft.group.line.sources)
      (hwrites : interval.register ∉ draft.group.line.destinations) :
      Treats frame temporaries interval draft draft
  | load (access : Access) (unused : List Nat) (hserves : access.Serves frame interval)
      (hreads : interval.register ∈ draft.group.line.sources)
      (hwrites : interval.register ∉ draft.group.line.destinations)
      (hunused : draft.unused = access.temporary :: unused) :
      Treats frame temporaries interval draft (draft.withLoad access unused)
  | loadStore (access : Access) (unused : List Nat) (hserves : access.Serves frame interval)
      (hreads : interval.register ∈ draft.group.line.sources)
      (hwrites : interval.register ∈ draft.group.line.destinations)
      (hunused : draft.unused = access.temporary :: unused) :
      Treats frame temporaries interval draft ((draft.withLoad access unused).withStore access)
  | store (access : Access) (hserves : access.Serves frame interval)
      (hreads : interval.register ∉ draft.group.line.sources)
      (hwrites : interval.register ∈ draft.group.line.destinations)
      (htemporary : temporaries.head? = some access.temporary) :
      Treats frame temporaries interval draft (draft.withStore access)

theorem Draft.treats_of_ok (h : (draft.spill frame temporaries index interval).result = .ok next) :
    draft.Treats frame temporaries interval next := by
  cases hslot : interval.slot with
  | none =>
    unfold Draft.spill at h
    rw [hslot] at h
    cases h
  | some slot =>
    rw [draft.result_spill_of_slot frame temporaries index hslot] at h
    split at h
    · rename_i hreads
      split at h
      · cases h
      · cases h
      · rename_i temporary unused offset hunused hoffset
        have hserves : Access.Serves frame interval ⟨interval.register, slot, temporary, offset⟩ :=
          ⟨rfl, hslot, hoffset⟩
        split at h
        · rename_i hwrites
          cases h
          exact .loadStore _ unused hserves hreads hwrites hunused
        · rename_i hwrites
          cases h
          exact .load _ unused hserves hreads hwrites hunused
    · rename_i hreads
      split at h
      · rename_i hwrites
        split at h
        · cases h
        · cases h
        · rename_i temporary others offset hoffset
          cases h
          exact .store _ ⟨rfl, hslot, hoffset⟩ hreads hwrites rfl
      · rename_i hwrites
        cases h
        exact .idle hreads hwrites

/-- **What one treatment can do.**  A register that the line neither reads nor writes changes
nothing.  Any other is replaced by a temporary, and the code around the line gets no access but to
its slot. -/
theorem Draft.spill_cases (h : (draft.spill frame temporaries index interval).result = .ok next) :
    (next = draft ∧ interval.register ∉ draft.group.line.sources ∧
      interval.register ∉ draft.group.line.destinations) ∨
    ∃ access : Access, access.register = interval.register ∧ interval.slot = some access.slot ∧
      frame.slotOffset? access.slot = some access.offset ∧
      access.temporary ∈ draft.unused ++ temporaries ∧
      next.group.line = draft.group.line.rename interval.register access.temporaryName ∧
      (∀ a ∈ next.group.loads ++ next.group.stores,
        a = access ∨ a ∈ draft.group.loads ++ draft.group.stores) ∧
      next.unused ⊆ draft.unused := by
  cases Draft.treats_of_ok h with
  | idle hreads hwrites => exact .inl ⟨rfl, hreads, hwrites⟩
  | load access unused hserves _ _ hunused =>
    refine .inr ⟨access, hserves.register, hserves.slot, hserves.offset, by simp [hunused], ?_, ?_,
      by simp [Draft.withLoad, hunused]⟩
    · rw [← hserves.register]
      rfl
    · intro a ha
      simp only [Draft.withLoad, List.mem_append, List.mem_cons, List.not_mem_nil, or_false] at ha ⊢
      tauto
  | loadStore access unused hserves _ _ hunused =>
    refine .inr ⟨access, hserves.register, hserves.slot, hserves.offset, by simp [hunused], ?_, ?_,
      by simp [Draft.withStore, Draft.withLoad, hunused]⟩
    · rw [← hserves.register]
      simp [Draft.withStore, Draft.withLoad]
    · intro a ha
      simp only [Draft.withStore, Draft.withLoad, List.mem_append, List.mem_cons, List.not_mem_nil,
        or_false] at ha ⊢
      tauto
  | store access hserves _ _ htemporary =>
    have hmem : access.temporary ∈ temporaries := List.mem_of_mem_head? htemporary
    refine .inr ⟨access, hserves.register, hserves.slot, hserves.offset, by simp [hmem], ?_, ?_,
      List.Subset.refl _⟩
    · rw [← hserves.register]
      rfl
    · intro a ha
      simp only [Draft.withStore, List.mem_append, List.mem_cons] at ha ⊢
      tauto

/-- **Induction over the spilled registers of a line**: what holds before any is treated and is
kept by each treatment holds of the group. -/
theorem Line.spill_induction {motive : List Interval → Draft → Prop}
    (hok : (line.spill frame spilled temporaries index).result = .ok group)
    (hstart : motive (spilled.filter fun i => i.contains index) (.ofLine temporaries line))
    (hstep : ∀ interval pending draft next, motive (interval :: pending) draft →
      (draft.spill frame temporaries index interval).result = .ok next → motive pending next) :
    ∃ draft, draft.group = group ∧ motive [] draft := by
  rw [Line.result_spill] at hok
  cases hdraft : line.draft frame spilled temporaries index with
  | error error =>
    rw [hdraft] at hok
    cases hok
  | ok final =>
    rw [hdraft] at hok
    cases hok
    refine ⟨final, rfl, ?_⟩
    unfold Line.draft at hdraft
    generalize (spilled.filter fun i => i.contains index) = pending at hstart hdraft
    generalize Draft.ofLine temporaries line = draft at hstart hdraft
    induction pending generalizing draft with
    | nil =>
      cases hdraft
      exact hstart
    | cons interval pending ih =>
      rw [List.foldlM_cons] at hdraft
      cases hnext : (draft.spill frame temporaries index interval).result with
      | error error =>
        rw [hnext] at hdraft
        cases hdraft
      | ok next =>
        rw [hnext] at hdraft
        exact ih next (hstep interval pending draft next hstart hnext) hdraft

theorem Line.spill_eq_ofLine (hreads : line.sources = []) (hwrites : line.destinations = [])
    (hok : (line.spill frame spilled temporaries index).result = .ok group) :
    group = .ofLine line := by
  obtain ⟨draft, rfl, hdraft⟩ := Line.spill_induction
    (motive := fun _ draft => draft.group = .ofLine line) hok rfl (by
      intro interval _ draft next hdraft hnext
      have hline : draft.group.line = line := by rw [hdraft, Group.ofLine]
      cases hslot : interval.slot with
      | none =>
        unfold Draft.spill at hnext
        rw [hslot] at hnext
        cases hnext
      | some slot =>
        rw [draft.result_spill_of_slot frame temporaries index hslot, hline, hreads, hwrites,
          if_neg List.not_mem_nil, if_neg List.not_mem_nil] at hnext
        cases hnext
        exact hdraft)
  exact hdraft

/-- **The groups of a spilled stream** are those of its lines, the leading `ENTER` being given the
size that the frame grows to. -/
theorem Code.lines_of_spill (hspilled : spilled ≠ [])
    (h : (code.spill spilled temporaries).result = .ok groups) :
    code.opensWithEnter = true ∧ groups.length = code.length ∧
      ∃ size, code.frame.sizeWithSlots? (lastSlot spilled) = some size ∧
        ∀ (index : Nat) (group : Group), groups[index]? = some group →
          ∃ line : Line, (code.grow size)[index]? = some line ∧
            (line.spill code.frame spilled temporaries index).result = .ok group := by
  rw [result_spill hspilled] at h
  split at h
  · rename_i henter
    split at h
    · cases h
    · rename_i size hsize
      obtain ⟨hlength, hlines⟩ := spillFrom_ok h
      refine ⟨henter, by rw [hlength, grow, List.length_set], size, hsize, ?_⟩
      intro index group hgroup
      have hlt : index < (code.grow size).length := by
        rw [← hlength]
        exact (List.getElem?_eq_some_iff.mp hgroup).1
      have hget := List.getElem?_eq_getElem hlt
      obtain ⟨group', hgroup', hspill⟩ := hlines index _ hget
      rw [Nat.zero_add] at hspill
      cases hgroup.symm.trans hgroup'
      exact ⟨_, hget, hspill⟩
  · cases h

theorem Code.forall₂_lines {related : Line → Group → Prop} (hlength : groups.length = code.length)
    (h : ∀ (index : Nat) (group : Group), groups[index]? = some group →
      ∃ line, code[index]? = some line ∧ related line group) :
    List.Forall₂ related code groups := by
  refine List.forall₂_iff_get.mpr ⟨hlength.symm, fun index hcode hgroups => ?_⟩
  obtain ⟨line, hline, hrelated⟩ := h index _ (List.getElem?_eq_getElem hgroups)
  cases (List.getElem?_eq_getElem hcode).symm.trans hline
  exact hrelated

/-! ## The code around a line -/

/-- Spill code moves the slots of some intervals through some temporaries. -/
def Group.Reaches (frame : Frame) (temporaries : List Nat) (spilled : List Interval)
    (group : Group) : Prop :=
  ∀ a ∈ group.loads ++ group.stores, a.temporary ∈ temporaries ∧
    ∃ i ∈ spilled, i.register = a.register ∧ i.slot = some a.slot ∧
      frame.slotOffset? a.slot = some a.offset

theorem Group.Reaches.spill (hmem : interval ∈ spilled) (hunused : draft.unused ⊆ temporaries)
    (h : draft.group.Reaches frame temporaries spilled)
    (hok : (draft.spill frame temporaries index interval).result = .ok next) :
    next.unused ⊆ temporaries ∧ next.group.Reaches frame temporaries spilled := by
  rcases Draft.spill_cases hok with ⟨rfl, _, _⟩ |
    ⟨access, hregister, hslot, hoffset, htemporary, _, haccesses, hsub⟩
  · exact ⟨hunused, h⟩
  · refine ⟨fun t ht => hunused (hsub ht), fun a ha => ?_⟩
    rcases haccesses a ha with rfl | hold
    · refine ⟨?_, interval, hmem, hregister.symm, hslot, hoffset⟩
      rcases List.mem_append.mp htemporary with ht | ht
      · exact hunused ht
      · exact ht
    · exact h a hold

theorem Line.spill_reaches (hok : (line.spill frame spilled temporaries index).result = .ok group) :
    group.Reaches frame temporaries spilled := by
  have hstart : (Draft.ofLine temporaries line).group.Reaches frame temporaries spilled := by
    intro a ha
    simp [Draft.ofLine, Group.ofLine] at ha
  obtain ⟨draft, rfl, _, _, hreaches⟩ := Line.spill_induction
    (motive := fun pending draft => pending ⊆ spilled ∧ draft.unused ⊆ temporaries ∧
      draft.group.Reaches frame temporaries spilled) hok
    ⟨List.filter_sublist.subset, List.Subset.refl _, hstart⟩
    fun interval pending draft next h hnext =>
      ⟨fun i hi => h.1 (List.mem_cons_of_mem _ hi),
        h.2.2.spill (h.1 List.mem_cons_self) h.2.1 hnext⟩
  exact hreaches

/-- **The accesses of a spilled stream.** -/
theorem Code.spill_reaches (h : (code.spill spilled temporaries).result = .ok groups) :
    ∀ group ∈ groups, group.Reaches code.frame temporaries spilled := by
  intro group hgroup
  by_cases hspilled : spilled = []
  · subst hspilled
    cases h
    obtain ⟨line, _, rfl⟩ := List.mem_map.mp hgroup
    intro a ha
    simp [Group.ofLine] at ha
  · obtain ⟨_, _, size, _, hlines⟩ := lines_of_spill hspilled h
    obtain ⟨index, hget⟩ := List.mem_iff_getElem?.mp hgroup
    obtain ⟨line, _, hline⟩ := hlines index group hget
    exact Line.spill_reaches hline

/-! ## The names of a line -/

/-- A register of a machine with some number of allocatable registers. -/
def Register.IsMachine (registers : Nat) (name : String) : Prop :=
  Register.isPinned name = true ∨ ∃ number < registers, name = Register.physical number

instance (registers : Nat) (name : String) : Decidable (Register.IsMachine registers name) :=
  inferInstanceAs (Decidable (_ ∨ _))

namespace Line

/-- A line that names a register reads all its operands, or writes the first and reads the
others. -/
def HasRoles (line : Line) : Prop :=
  line.referenced ≠ [] → ∃ opcode ∈ line.opcode?, opcode.writesFirst = true ∨ opcode.readsAll = true

instance (line : Line) : Decidable line.HasRoles :=
  inferInstanceAs (Decidable (_ → _))

theorem HasRoles.mapRegisters (h : line.HasRoles) (f : String → String) :
    (line.mapRegisters f).HasRoles := by
  unfold HasRoles at h ⊢
  rw [referenced_mapRegisters, opcode?_mapRegisters]
  intro hne
  exact h fun hnil => hne (by rw [hnil, List.map_nil])

theorem HasRoles.mem_sources_or_destinations (h : line.HasRoles) (hname : name ∈ line.referenced) :
    name ∈ line.sources ∨ name ∈ line.destinations := by
  obtain ⟨opcode, hopcode, hroles⟩ := h (List.ne_nil_of_mem hname)
  cases line with
  | label _ => cases hopcode
  | instr opcode operands =>
    cases hopcode
    simp only [referenced, Line.operands, registersOf, List.mem_reverse] at hname
    simp only [sources, destinations, registersOf]
    rcases hroles with hwrites | hreads
    · rw [Opcode.readsAll_eq_false_of_writesFirst hwrites, hwrites]
      cases operands with
      | nil => simp at hname
      | cons first rest =>
        cases hfirst : first.register? <;> simp_all [or_comm]
    · rw [hreads]
      left
      simpa using hname

theorem mem_referenced_rename {old new : String} (h : name ∈ (line.rename old new).referenced) :
    name = new ∨ name ∈ line.referenced ∧ name ≠ old := by
  rw [rename, referenced_mapRegisters, List.mem_map] at h
  obtain ⟨original, horiginal, heq⟩ := h
  split at heq
  · exact .inl heq.symm
  · rename_i hne
    exact .inr ⟨heq ▸ horiginal, heq ▸ hne⟩

end Line

/-- What is known of the names of a line while its spilled registers are treated. -/
structure Draft.Resolves (registers : Nat) (temporaries : List Nat) (pending : List Interval)
    (draft : Draft) : Prop where
  unused : draft.unused ⊆ temporaries
  roles : draft.group.line.HasRoles
  names : ∀ name ∈ draft.group.line.referenced,
    Register.IsMachine registers name ∨ name ∈ pending.map Interval.register

/-- **A treated register has left the line**, unless its name is also that of a temporary. -/
theorem Draft.Resolves.spill (htemporaries : ∀ t ∈ temporaries, t < registers)
    (h : draft.Resolves registers temporaries (interval :: pending))
    (hok : (draft.spill frame temporaries index interval).result = .ok next) :
    next.Resolves registers temporaries pending := by
  rcases Draft.spill_cases hok with ⟨rfl, hreads, hwrites⟩ |
    ⟨access, _, _, _, htemporary, hline, _, hsub⟩
  · refine ⟨h.unused, h.roles, fun name hname => ?_⟩
    rcases h.names name hname with hmachine | hpending
    · exact .inl hmachine
    · rcases List.mem_cons.mp hpending with rfl | hpending
      · rcases h.roles.mem_sources_or_destinations hname with hmem | hmem
        · exact absurd hmem hreads
        · exact absurd hmem hwrites
      · exact .inr hpending
  · refine ⟨fun t ht => h.unused (hsub ht), ?_, fun name hname => ?_⟩
    · rw [hline]
      exact h.roles.mapRegisters _
    · rw [hline] at hname
      rcases Line.mem_referenced_rename hname with rfl | ⟨hold, hne⟩
      · refine .inl (.inr ⟨access.temporary, htemporaries _ ?_, rfl⟩)
        rcases List.mem_append.mp htemporary with ht | ht
        · exact h.unused ht
        · exact ht
      · rcases h.names name hold with hmachine | hpending
        · exact .inl hmachine
        · rcases List.mem_cons.mp hpending with heq | hpending
          · exact absurd heq hne
          · exact .inr hpending

/-- A line whose spilled registers are to be treated: each register that it names is read or
written, and is one of the machine or a spilled one whose interval contains the line. -/
structure Line.Resolvable (registers : Nat) (spilled : List Interval) (index : Nat)
    (line : Line) : Prop where
  roles : line.HasRoles
  names : ∀ name ∈ line.referenced, Register.IsMachine registers name ∨
    ∃ i ∈ spilled, i.contains index = true ∧ i.register = name

theorem Line.Resolvable.ofLine (h : line.Resolvable registers spilled index) :
    (Draft.ofLine temporaries line).Resolves registers temporaries
      (spilled.filter fun i => i.contains index) := by
  refine ⟨List.Subset.refl _, h.roles, fun name hname => ?_⟩
  rcases h.names name hname with hmachine | ⟨i, hi, hcontains, rfl⟩
  · exact .inl hmachine
  · exact .inr (List.mem_map_of_mem (List.mem_filter.mpr ⟨hi, hcontains⟩))

theorem Line.spill_resolves (htemporaries : ∀ t ∈ temporaries, t < registers)
    (h : line.Resolvable registers spilled index)
    (hok : (line.spill frame spilled temporaries index).result = .ok group) :
    ∀ name ∈ group.line.referenced, Register.IsMachine registers name := by
  obtain ⟨draft, rfl, hresolves⟩ := Line.spill_induction
    (motive := fun pending draft => draft.Resolves registers temporaries pending) hok h.ofLine
    fun _ _ _ _ h hnext => h.spill htemporaries hnext
  intro name hname
  rcases hresolves.names name hname with hmachine | hpending
  · exact hmachine
  · cases hpending

/-- The code that moves a slot names pinned registers and its temporary alone. -/
theorem isMachine_of_mem_slotAccess {opcode : Opcode} {temporary : Nat} {offset : Int32}
    (htemporary : temporary < registers)
    (hline : line ∈ slotAccess opcode (Register.physical temporary) offset)
    (hname : name ∈ line.referenced) : Register.IsMachine registers name := by
  have hcases : name = Register.physical temporary ∨ name = Register.framePointer ∨
      name = Register.returnAddress := by
    unfold slotAccess at hline
    split at hline
    · rw [List.mem_singleton.mp hline] at hname
      simp [Line.referenced, Line.operands, Line.registersOf, Operand.register?] at hname
      tauto
    · simp only [List.mem_cons, List.not_mem_nil, or_false] at hline
      rcases hline with rfl | rfl | rfl | rfl <;>
        simp [Line.referenced, Line.operands, Line.registersOf, Operand.register?] at hname <;>
        tauto
  rcases hcases with rfl | rfl | rfl
  · exact .inr ⟨temporary, htemporary, rfl⟩
  · exact .inl (by decide)
  · exact .inl (by decide)

end TurtleAlloc
