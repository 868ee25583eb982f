import Mathlib
import TurtleAlloc.Proofs.Allocation.Relabel
import TurtleAlloc.Proofs.Spill.Names

/-!
# Spill code does not depend on the names of spilled registers

This holds as long as no spilled register has the name of a register of the machine: spilled
registers stand in a line next to pool registers and temporaries until they are treated.

* `substitute` — some names exchanged for their images, all others kept.
* `Exchangeable` — names outside the machine that have different images outside the machine.
* `Draft.spill_relabel` — treating a register under its other name gives the same draft, up to the
  registers that are still to be treated.
* `Code.spill_relabel` — spilling a stream with other names gives the same code.
-/

namespace TurtleAlloc

variable {f : String → String} {registers index : Nat} {names : List String}
  {name old new : String} {line : Line} {frame : Frame} {temporaries : List Nat}
  {interval : Interval} {pending spilled : List Interval} {draft : Draft}

/-! ## Exchanging names -/

/-- Some names exchanged for their images. -/
def substitute (f : String → String) (names : List String) (name : String) : String :=
  if name ∈ names then f name else name

/-- Names outside the machine that have different images outside the machine. -/
structure Exchangeable (registers : Nat) (f : String → String) (names : List String) : Prop where
  inj : ∀ a ∈ names, ∀ b ∈ names, f a = f b → a = b
  outside : ∀ a ∈ names, ¬ Register.IsMachine registers a
  image_outside : ∀ a ∈ names, ¬ Register.IsMachine registers (f a)

theorem Exchangeable.mono {fewer : List String} (h : Exchangeable registers f names)
    (hsub : fewer ⊆ names) : Exchangeable registers f fewer where
  inj a ha b hb := h.inj a (hsub ha) b (hsub hb)
  outside a ha := h.outside a (hsub ha)
  image_outside a ha := h.image_outside a (hsub ha)

theorem substitute_of_isMachine (h : Exchangeable registers f names)
    (hname : Register.IsMachine registers name) : substitute f names name = name :=
  if_neg fun hmem => h.outside name hmem hname

/-- An image is met only in place of the name it is the image of. -/
theorem substitute_eq_image_iff (h : Exchangeable registers f names) (hold : old ∈ names)
    (hname : Register.IsMachine registers name ∨ name ∈ names) :
    substitute f names name = f old ↔ name = old := by
  rcases hname with hmachine | hmem
  · rw [substitute_of_isMachine h hmachine]
    constructor
    · intro heq
      exact absurd (heq ▸ hmachine) (h.image_outside old hold)
    · intro heq
      exact absurd (heq ▸ hmachine) (h.outside old hold)
  · rw [substitute, if_pos hmem]
    exact ⟨h.inj name hmem old hold, congrArg f⟩

theorem image_mem_map_substitute_iff (h : Exchangeable registers f names) (hold : old ∈ names)
    {roles : List String}
    (hroles : ∀ name ∈ roles, Register.IsMachine registers name ∨ name ∈ names) :
    f old ∈ roles.map (substitute f names) ↔ old ∈ roles := by
  rw [List.mem_map]
  constructor
  · rintro ⟨name, hmem, heq⟩
    exact (substitute_eq_image_iff h hold (hroles name hmem)).mp heq ▸ hmem
  · intro hmem
    exact ⟨old, hmem, if_pos hold⟩

namespace Line

theorem mapRegisters_congr {f g : String → String} (h : ∀ name ∈ line.referenced, f name = g name) :
    line.mapRegisters f = line.mapRegisters g := by
  cases line with
  | label _ => rfl
  | instr opcode operands =>
    refine congrArg (instr opcode) (List.map_congr_left fun operand hoperand => ?_)
    cases operand with
    | register name =>
      refine congrArg Operand.register (h name ?_)
      rw [referenced, registersOf, List.mem_reverse, List.mem_filterMap]
      exact ⟨_, hoperand, rfl⟩
    | label _ => rfl
    | number _ => rfl

/-- **Replacing an exchanged name** is replacing the name before the others are exchanged. -/
theorem rename_substitute (h : Exchangeable registers f (old :: names))
    (hnew : Register.IsMachine registers new)
    (hline : ∀ name ∈ line.referenced, Register.IsMachine registers name ∨ name ∈ old :: names) :
    (line.mapRegisters (substitute f (old :: names))).rename (f old) new =
      (line.rename old new).mapRegisters (substitute f names) := by
  unfold rename
  rw [mapRegisters_mapRegisters, mapRegisters_mapRegisters]
  refine mapRegisters_congr fun name hname => ?_
  have hiff := substitute_eq_image_iff h List.mem_cons_self (hline name hname)
  by_cases heq : name = old
  · rw [if_pos heq, if_pos (hiff.mpr heq)]
    exact (substitute_of_isMachine (h.mono (List.subset_cons_self old names)) hnew).symm
  · rw [if_neg heq, if_neg (mt hiff.mp heq)]
    simp [substitute, heq]

end Line

/-! ## One line -/

/-- An access to a register with another name. -/
def Access.relabel (f : String → String) (access : Access) : Access :=
  { access with register := f access.register }

@[simp] theorem Access.load_relabel (access : Access) : (access.relabel f).load = access.load := rfl

@[simp] theorem Access.store_relabel (access : Access) :
    (access.relabel f).store = access.store := rfl

/-- A draft in which the registers that are still to be treated have other names. -/
def Draft.relabel (f : String → String) (pending : List Interval) (draft : Draft) : Draft where
  group := {
    loads := draft.group.loads.map (Access.relabel f)
    line := draft.group.line.mapRegisters (substitute f (pending.map Interval.register))
    stores := draft.group.stores.map (Access.relabel f) }
  unused := draft.unused

namespace Draft

section

variable (access : Access)
  (hline : (draft.relabel f (interval :: pending)).group.line.rename (f access.register)
      access.temporaryName =
    (draft.group.line.rename access.register access.temporaryName).mapRegisters
      (substitute f (pending.map Interval.register)))

include hline

theorem withLoad_relabel (unused : List Nat) :
    (draft.relabel f (interval :: pending)).withLoad (access.relabel f) unused =
      (draft.withLoad access unused).relabel f pending := by
  unfold withLoad
  rw [show (access.relabel f).temporaryName = access.temporaryName from rfl]
  simp [relabel, ← hline, Access.relabel]

theorem withStore_relabel :
    (draft.relabel f (interval :: pending)).withStore (access.relabel f) =
      (draft.withStore access).relabel f pending := by
  unfold withStore
  rw [show (access.relabel f).temporaryName = access.temporaryName from rfl]
  simp [relabel, ← hline, Access.relabel]

theorem withLoad_withStore_relabel (unused : List Nat) :
    ((draft.relabel f (interval :: pending)).withLoad (access.relabel f) unused).withStore
        (access.relabel f) =
      ((draft.withLoad access unused).withStore access).relabel f pending := by
  unfold withStore withLoad
  rw [show (access.relabel f).temporaryName = access.temporaryName from rfl]
  simp [relabel, ← hline, Access.relabel]

end

/-- **Treating a register under its other name.** -/
theorem spill_relabel (h : Exchangeable registers f ((interval :: pending).map Interval.register))
    (htemporaries : ∀ t ∈ temporaries, t < registers)
    (hresolves : draft.Resolves registers temporaries (interval :: pending)) :
    ((draft.relabel f (interval :: pending)).spill frame temporaries index
      (interval.relabel f)).result =
      (draft.spill frame temporaries index interval).result.map (relabel f pending) := by
  cases hslot : interval.slot with
  | none =>
    unfold spill
    rw [Interval.slot_relabel, hslot]
    rfl
  | some slot =>
    have hreads : (interval.relabel f).register ∈
        (draft.relabel f (interval :: pending)).group.line.sources ↔
          interval.register ∈ draft.group.line.sources := by
      simp only [relabel, Line.sources_mapRegisters]
      exact image_mem_map_substitute_iff h List.mem_cons_self fun name hname =>
        hresolves.names name (Line.mem_referenced_of_mem_sources hname)
    have hwrites : (interval.relabel f).register ∈
        (draft.relabel f (interval :: pending)).group.line.destinations ↔
          interval.register ∈ draft.group.line.destinations := by
      simp only [relabel, Line.destinations_mapRegisters]
      exact image_mem_map_substitute_iff h List.mem_cons_self fun name hname =>
        hresolves.names name (Line.mem_referenced_of_mem_destinations hname)
    have hrename : ∀ t ∈ temporaries,
        (draft.relabel f (interval :: pending)).group.line.rename (f interval.register)
            (Register.physical t) =
          (draft.group.line.rename interval.register (Register.physical t)).mapRegisters
            (substitute f (pending.map Interval.register)) := fun t ht =>
      Line.rename_substitute h (.inr ⟨t, htemporaries t ht, rfl⟩) hresolves.names
    rw [draft.result_spill_of_slot frame temporaries index hslot,
      (draft.relabel f (interval :: pending)).result_spill_of_slot frame temporaries index
        ((interval.slot_relabel f).trans hslot)]
    by_cases hread : interval.register ∈ draft.group.line.sources
    · rw [if_pos hread, if_pos (hreads.mpr hread)]
      rw [show (draft.relabel f (interval :: pending)).unused = draft.unused from rfl]
      cases hunused : draft.unused with
      | nil => rfl
      | cons temporary unused =>
        have hline := hrename temporary (hresolves.unused (by simp [hunused]))
        cases frame.slotOffset? slot with
        | none => rfl
        | some offset =>
          by_cases hwrite : interval.register ∈ draft.group.line.destinations
          · simp only [if_pos hwrite, if_pos (hwrites.mpr hwrite)]
            exact congrArg Except.ok
              (withLoad_withStore_relabel ⟨interval.register, slot, temporary, offset⟩ hline unused)
          · simp only [if_neg hwrite, if_neg (mt hwrites.mp hwrite)]
            exact congrArg Except.ok
              (withLoad_relabel ⟨interval.register, slot, temporary, offset⟩ hline unused)
    · rw [if_neg hread, if_neg (mt hreads.mp hread)]
      by_cases hwrite : interval.register ∈ draft.group.line.destinations
      · rw [if_pos hwrite, if_pos (hwrites.mpr hwrite)]
        cases temporaries with
        | nil => rfl
        | cons temporary others =>
          cases frame.slotOffset? slot with
          | none => rfl
          | some offset =>
            exact congrArg Except.ok (withStore_relabel ⟨interval.register, slot, temporary, offset⟩
              (hrename temporary List.mem_cons_self))
      · rw [if_neg hwrite, if_neg (mt hwrites.mp hwrite)]
        -- the register does not occur in the line, so its name need not be exchanged
        refine congrArg Except.ok ?_
        unfold relabel
        congr 2
        refine Line.mapRegisters_congr fun name hname => ?_
        have hne : name ≠ interval.register := by
          rintro rfl
          rcases hresolves.roles.mem_sources_or_destinations hname with hmem | hmem
          · exact hread hmem
          · exact hwrite hmem
        simp [substitute, hne]

/-- **Treating all registers of a line** under their other names. -/
theorem foldlM_spill_relabel (h : Exchangeable registers f (pending.map Interval.register))
    (htemporaries : ∀ t ∈ temporaries, t < registers)
    (hresolves : draft.Resolves registers temporaries pending) :
    (pending.map (Interval.relabel f)).foldlM
        (fun (draft : Draft) interval => (draft.spill frame temporaries index interval).result)
        (draft.relabel f pending) =
      (pending.foldlM
        (fun (draft : Draft) interval => (draft.spill frame temporaries index interval).result)
        draft).map (relabel f []) := by
  induction pending generalizing draft with
  | nil => rfl
  | cons interval pending ih =>
    rw [List.map_cons, List.foldlM_cons, List.foldlM_cons, spill_relabel h htemporaries hresolves]
    cases hnext : (draft.spill frame temporaries index interval).result with
    | error error => rfl
    | ok next =>
      exact ih (h.mono (List.subset_cons_self _ _)) (hresolves.spill htemporaries hnext)

theorem code_relabel_nil (draft : Draft) : (draft.relabel f []).group.code = draft.group.code := by
  have hline : draft.group.line.mapRegisters (substitute f []) = draft.group.line :=
    draft.group.line.mapRegisters_id
  simp [relabel, Group.code, List.flatMap_map, hline]

end Draft

/-- Of the names exchanged in a stream, a line has those that are still to be treated. -/
theorem Line.Resolvable.relabel_ofLine (hline : line.Resolvable registers spilled index)
    (h : Exchangeable registers f (spilled.map Interval.register)) :
    Draft.ofLine temporaries
        (line.mapRegisters (substitute f (spilled.map Interval.register))) =
      (Draft.ofLine temporaries line).relabel f (spilled.filter fun i => i.contains index) := by
  unfold Draft.relabel Draft.ofLine Group.ofLine
  congr 2
  refine Line.mapRegisters_congr fun name hname => ?_
  have hsub : (spilled.filter fun i => i.contains index).map Interval.register ⊆
      spilled.map Interval.register := List.map_subset _ List.filter_sublist.subset
  rcases hline.names name hname with hmachine | ⟨i, hi, hcontains, rfl⟩
  · rw [substitute_of_isMachine h hmachine, substitute_of_isMachine (h.mono hsub) hmachine]
  · have hmem : i.register ∈ (spilled.filter fun i => i.contains index).map Interval.register :=
      List.mem_map_of_mem (List.mem_filter.mpr ⟨hi, hcontains⟩)
    rw [substitute, substitute, if_pos hmem, if_pos (hsub hmem)]

/-- **The code of a line** does not depend on the names of the spilled registers. -/
theorem Line.spill_relabel (h : Exchangeable registers f (spilled.map Interval.register))
    (htemporaries : ∀ t ∈ temporaries, t < registers)
    (hline : line.Resolvable registers spilled index) :
    ((line.mapRegisters (substitute f (spilled.map Interval.register))).spill frame
        (spilled.map (Interval.relabel f)) temporaries index).result.map Group.code =
      (line.spill frame spilled temporaries index).result.map Group.code := by
  have hpending : (spilled.map (Interval.relabel f)).filter (fun i => i.contains index) =
      (spilled.filter fun i => i.contains index).map (Interval.relabel f) := List.filter_map
  have hsub : (spilled.filter fun i => i.contains index).map Interval.register ⊆
      spilled.map Interval.register := List.map_subset _ List.filter_sublist.subset
  rw [result_spill, result_spill, draft, draft, hpending, hline.relabel_ofLine h,
    Draft.foldlM_spill_relabel (h.mono hsub) htemporaries hline.ofLine]
  cases (spilled.filter fun i => i.contains index).foldlM
    (fun (draft : Draft) interval => (draft.spill frame temporaries index interval).result)
    (Draft.ofLine temporaries line) with
  | error error => rfl
  | ok draft => exact congrArg Except.ok draft.code_relabel_nil

/-! ## A stream -/

namespace Code

variable {code : Code}

theorem opensWithEnter_mapRegisters (f : String → String) (code : Code) :
    (code.mapRegisters f).opensWithEnter = code.opensWithEnter := by
  rcases code with _ | ⟨line, rest⟩
  · rfl
  · exact opensWithEnter_cons_mapRegisters f line rest _

theorem frame_mapRegisters (f : String → String) (code : Code) :
    (code.mapRegisters f).frame = code.frame := by
  rcases code with _ | ⟨line, rest⟩
  · rfl
  · exact frame_cons_mapRegisters f line rest _

theorem grow_mapRegisters (f : String → String) (code : Code) (size : Int32) :
    (code.mapRegisters f).grow size = (code.grow size).mapRegisters f := by
  unfold grow mapRegisters
  rw [List.map_set]
  rfl

theorem lastSlot_relabel (f : String → String) (spilled : List Interval) :
    lastSlot (spilled.map (Interval.relabel f)) = lastSlot spilled := by
  unfold lastSlot
  rw [List.filterMap_map]
  rfl

/-- The code of a stream is that of its first line and that of the others. -/
theorem result_map_spillFrom_cons (start : Nat) (rest : Code) :
    (spillFrom frame spilled temporaries start (line :: rest)).result.map ofGroups =
      ((line.spill frame spilled temporaries start).result.map Group.code).bind fun first =>
        ((spillFrom frame spilled temporaries (start + 1) rest).result.map ofGroups).map
          (first ++ ·) := by
  rw [spillFrom]
  simp only [Attempt.result_bind]
  cases (line.spill frame spilled temporaries start).result with
  | error error => rfl
  | ok group => cases (spillFrom frame spilled temporaries (start + 1) rest).result <;> rfl

theorem spillFrom_relabel (h : Exchangeable registers f (spilled.map Interval.register))
    (htemporaries : ∀ t ∈ temporaries, t < registers) {start : Nat}
    (hlines : ∀ (index : Nat) (line : Line), code[index]? = some line →
      line.Resolvable registers spilled (start + index)) :
    ((code.mapRegisters (substitute f (spilled.map Interval.register))).spillFrom frame
        (spilled.map (Interval.relabel f)) temporaries start).result.map ofGroups =
      (code.spillFrom frame spilled temporaries start).result.map ofGroups := by
  induction code generalizing start with
  | nil => rfl
  | cons line rest ih =>
    have hfirst : line.Resolvable registers spilled start := hlines 0 line rfl
    have hrest : ∀ (index : Nat) (line : Line), rest[index]? = some line →
        line.Resolvable registers spilled (start + 1 + index) := by
      intro index next hget
      rw [Nat.add_assoc, Nat.add_comm 1 index]
      exact hlines (index + 1) next hget
    rw [mapRegisters, List.map_cons, result_map_spillFrom_cons, result_map_spillFrom_cons,
      Line.spill_relabel h htemporaries hfirst, ← mapRegisters, ih hrest]

/-- **The code of a stream** does not depend on the names of the spilled registers. -/
theorem spill_relabel (h : Exchangeable registers f (spilled.map Interval.register))
    (htemporaries : ∀ t ∈ temporaries, t < registers)
    (hlines : ∀ (size : Int32) (index : Nat) (line : Line), (code.grow size)[index]? = some line →
      line.Resolvable registers spilled index) :
    ((code.mapRegisters (substitute f (spilled.map Interval.register))).spill
        (spilled.map (Interval.relabel f)) temporaries).result.map ofGroups =
      (code.spill spilled temporaries).result.map ofGroups := by
  by_cases hspilled : spilled = []
  · subst hspilled
    have hkept : code.mapRegisters (substitute f []) = code := by
      unfold mapRegisters
      exact (List.map_congr_left fun line _ => line.mapRegisters_id).trans (List.map_id code)
    rw [List.map_nil, List.map_nil, hkept]
  · rw [result_spill hspilled, result_spill (by simpa using hspilled),
      opensWithEnter_mapRegisters, frame_mapRegisters, lastSlot_relabel]
    split_ifs
    · cases code.frame.sizeWithSlots? (lastSlot spilled) with
      | none => rfl
      | some size =>
        simp only [grow_mapRegisters]
        apply spillFrom_relabel h htemporaries
        intro index line hget
        rw [Nat.zero_add]
        exact hlines size index line hget
    · rfl

end Code

end TurtleAlloc
