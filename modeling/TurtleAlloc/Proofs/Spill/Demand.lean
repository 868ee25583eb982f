import Mathlib
import TurtleAlloc.Proofs.Frame
import TurtleAlloc.Proofs.Spill.Groups

/-!
# How many temporaries spill code needs

* `Code.Accommodates` — the frame of a stream has room for the slots of some intervals.
* `Code.Overdraws` — a line needs more temporaries than there are.
* `Code.overdraws_of_spill_error`, `Code.not_overdraws_of_spill_ok` — that is the only reason for
  which spill code of such a stream cannot be written.
* `spill_outOfTemporaries_iff` — so the answer depends on the number of the temporaries only, and on
  no order.
-/

namespace TurtleAlloc

variable {code : Code} {spilled spilled' : List Interval} {temporaries temporaries' : List Nat}
  {line : Line}

/-! ## The demand of a line -/

instance (temporaries : List Nat) (treated : List Interval) (line : Line) :
    Decidable (Exceeds temporaries treated line) :=
  inferInstanceAs (Decidable (_ ∨ _ ∧ _))

theorem not_exceeds_of_enter (h : line.opcode? = some .enter) (temporaries : List Nat)
    (treated : List Interval) : ¬ Exceeds temporaries treated line := by
  obtain ⟨hreads, hwrites⟩ := Line.roles_of_enter h
  simp [Exceeds, hreads, hwrites]

/-- The demand does not depend on the order of the intervals, nor on which temporaries there are. -/
theorem Exceeds.of_perm (hspilled : spilled.Perm spilled')
    (htemporaries : temporaries.length = temporaries'.length)
    (h : Exceeds temporaries spilled line) : Exceeds temporaries' spilled' line := by
  rcases h with hlt | ⟨hnil, i, hi, hwrites⟩
  · left
    rw [← htemporaries, ← (hspilled.filter _).length_eq]
    exact hlt
  · refine .inr ⟨?_, i, hspilled.mem_iff.mp hi, hwrites⟩
    rw [hnil] at htemporaries
    exact List.eq_nil_of_length_eq_zero htemporaries.symm

theorem Spillable.of_perm (hspilled : spilled.Perm spilled')
    (htemporaries : temporaries.Perm temporaries') (h : Spillable spilled temporaries) :
    Spillable spilled' temporaries' := by
  refine ⟨(hspilled.map _).nodup_iff.mp h.nodup, fun i hi t ht => ?_⟩
  exact h.temporary_ne i (hspilled.mem_iff.mpr hi) t (htemporaries.mem_iff.mpr ht)

/-! ## The demand of a stream -/

namespace Code

/-- A stream opens a frame that can grow for the slots of some intervals. -/
structure Accommodates (code : Code) (spilled : List Interval) : Prop where
  enter : code.opensWithEnter = true
  slot : ∀ i ∈ spilled, ∃ slot < 2 ^ 31, i.slot = some slot
  size : ∃ size, code.frame.sizeWithSlots? (lastSlot spilled) = some size

/-- Some line needs more temporaries than there are: it reads more spilled registers, or it writes
one and there is no temporary at all. -/
def Overdraws (code : Code) (spilled : List Interval) (temporaries : List Nat) : Prop :=
  ∃ (index : Nat) (line : Line), code[index]? = some line ∧
    Exceeds temporaries (spilled.filter fun i => i.contains index) line

instance (code : Code) (spilled : List Interval) (temporaries : List Nat) :
    Decidable (code.Overdraws spilled temporaries) :=
  decidable_of_iff (∃ entry ∈ code.zipIdx,
    Exceeds temporaries (spilled.filter fun i => i.contains entry.2) entry.1) <| by
      constructor
      · rintro ⟨⟨line, index⟩, hmem, h⟩
        exact ⟨index, line, List.mem_zipIdx_iff_getElem?.mp hmem, h⟩
      · rintro ⟨index, line, hget, h⟩
        exact ⟨(line, index), List.mem_zipIdx_iff_getElem?.mpr hget, h⟩

theorem Overdraws.of_perm (hspilled : spilled.Perm spilled')
    (htemporaries : temporaries.length = temporaries'.length)
    (h : code.Overdraws spilled temporaries) : code.Overdraws spilled' temporaries' := by
  obtain ⟨index, line, hget, hexceeds⟩ := h
  exact ⟨index, line, hget, hexceeds.of_perm (hspilled.filter _) htemporaries⟩

theorem lastSlot_eq_of_perm (h : spilled.Perm spilled') : lastSlot spilled = lastSlot spilled' :=
  (h.filterMap Interval.slot).foldl_eq 0

theorem Accommodates.of_perm (hspilled : spilled.Perm spilled') (h : code.Accommodates spilled) :
    code.Accommodates spilled' := by
  refine ⟨h.enter, fun i hi => h.slot i (hspilled.mem_iff.mpr hi), ?_⟩
  rw [← lastSlot_eq_of_perm hspilled]
  exact h.size

theorem opcode?_of_opensWithEnter (henter : code.opensWithEnter = true)
    (hget : code[0]? = some line) : line.opcode? = some .enter := by
  unfold opensWithEnter at henter
  split at henter
  · cases hget
    rfl
  · cases henter

theorem getElem?_of_exceeds {size : Int32} {index : Nat} {treated : List Interval}
    (hget : (code.grow size)[index]? = some line) (h : Exceeds temporaries treated line) :
    code[index]? = some line := by
  rw [grow, List.getElem?_set] at hget
  split_ifs at hget with hzero hlt
  · cases hget
    exact absurd h (not_exceeds_of_enter rfl temporaries treated)
  · exact hget

/-- **Spill code that cannot be written needs more temporaries.** -/
theorem overdraws_of_spill_error {error : SpillError} (hspilled : spilled ≠ [])
    (hspillable : Spillable spilled temporaries) (hroom : code.Accommodates spilled)
    (h : (code.spill spilled temporaries).result = .error error) :
    error = .outOfTemporaries ∧ code.Overdraws spilled temporaries := by
  obtain ⟨size, hsize⟩ := hroom.size
  have hmem : ∀ {index i}, i ∈ spilled.filter (fun i => i.contains index) → i ∈ spilled :=
    fun hi => (List.mem_filter.mp hi).1
  rcases spill_error hspilled hspillable h with ⟨hnone, _⟩ | ⟨_, hnone, _⟩ | ⟨_, houtcome⟩
  · rw [hroom.enter] at hnone
    cases hnone
  · rw [hsize] at hnone
    cases hnone
  · obtain ⟨index, line, size', hget, houtcome⟩ := houtcome
    cases error with
    | outOfTemporaries => exact ⟨rfl, index, line, getElem?_of_exceeds hget houtcome, houtcome⟩
    | missingLeadingEnter => exact houtcome.elim
    | missingSpillSlot =>
      obtain ⟨i, hi, hnone⟩ := houtcome
      obtain ⟨slot, _, hslot⟩ := hroom.slot i (hmem hi)
      rw [hnone] at hslot
      cases hslot
    | overflow =>
      -- a frame that grows for the last slot has a place for every slot
      obtain ⟨i, hi, slot, hslot, hnone⟩ := houtcome
      have hlast := (lastSlot_spec spilled).2 i (hmem hi) slot hslot
      obtain ⟨offset, hoffset⟩ :=
        Frame.exists_slotOffset? (lastSlot_lt_of_forall hspilled hroom.slot) hsize hlast
      rw [hoffset] at hnone
      cases hnone

/-- **Spill code that is written found its temporaries.** -/
theorem not_overdraws_of_spill_ok {groups : List Group}
    (hspillable : Spillable spilled temporaries)
    (h : (code.spill spilled temporaries).result = .ok groups) :
    ¬ code.Overdraws spilled temporaries := by
  rintro ⟨index, line, hget, hexceeds⟩
  have hspilled : spilled ≠ [] := by
    rintro rfl
    simp [Exceeds] at hexceeds
  obtain ⟨henter, size, _, _, hlines⟩ := spill_ok hspilled hspillable h
  cases index with
  | zero => exact not_exceeds_of_enter (opcode?_of_opensWithEnter henter hget) _ _ hexceeds
  | succ index =>
    have hgrown : (code.grow size)[index + 1]? = some line := by
      rw [grow, List.getElem?_set_ne (by omega), hget]
    obtain ⟨group, unused, _, hspills⟩ := hlines (index + 1) line hgrown
    exact hspills.not_exceeds hexceeds

theorem exists_spill_iff (hspilled : spilled ≠ []) (hspillable : Spillable spilled temporaries)
    (hroom : code.Accommodates spilled) :
    (∃ groups, (code.spill spilled temporaries).result = .ok groups) ↔
      ¬ code.Overdraws spilled temporaries := by
  constructor
  · rintro ⟨groups, hok⟩
    exact not_overdraws_of_spill_ok hspillable hok
  · intro hnot
    cases hresult : (code.spill spilled temporaries).result with
    | ok groups => exact ⟨groups, rfl⟩
    | error error =>
      exact absurd (overdraws_of_spill_error hspilled hspillable hroom hresult).2 hnot

end Code

/-- **The demand for temporaries, exactly.**  In a stream whose frame has room for the slots, spill
code cannot be written if a line reads more of the spilled registers in use there than there are
temporaries, or writes one of them and there is no temporary; in all other cases it is written.  So
neither the order of the spilled registers nor that of the temporaries matters. -/
theorem spill_outOfTemporaries_iff (hspilled : spilled ≠ [])
    (hspillable : Spillable spilled temporaries) (hroom : code.Accommodates spilled) :
    ((code.spill spilled temporaries).result = .error .outOfTemporaries ↔
      code.Overdraws spilled temporaries) ∧
    (¬ code.Overdraws spilled temporaries →
      ∃ groups, (code.spill spilled temporaries).result = .ok groups) ∧
    ∀ spilled' temporaries', spilled.Perm spilled' → temporaries.Perm temporaries' →
      ((∃ groups, (code.spill spilled' temporaries').result = .ok groups) ↔
        ∃ groups, (code.spill spilled temporaries).result = .ok groups) := by
  have hok := Code.exists_spill_iff hspilled hspillable hroom
  refine ⟨⟨fun h => ?_, fun h => ?_⟩, hok.mpr, fun spilled' temporaries' hperm hperm' => ?_⟩
  · exact (Code.overdraws_of_spill_error hspilled hspillable hroom h).2
  · cases hresult : (code.spill spilled temporaries).result with
    | ok groups => exact absurd h (hok.mp ⟨groups, hresult⟩)
    | error error =>
      rw [(Code.overdraws_of_spill_error hspilled hspillable hroom hresult).1]
  · have hspilled' : spilled' ≠ [] := by
      rintro rfl
      exact hspilled hperm.eq_nil
    rw [Code.exists_spill_iff hspilled' (hspillable.of_perm hperm hperm') (hroom.of_perm hperm),
      hok, not_iff_not]
    exact ⟨fun h => h.of_perm hperm.symm hperm'.symm.length_eq,
      fun h => h.of_perm hperm hperm'.length_eq⟩

/-- A register that is read twice and one that is only written make do with one temporary between
them; two that are read need two, also if one of them is written as well. -/
theorem spill_outOfTemporaries_iff_two_lines :
    let code : Code := [.instr .enter [.number 2],
      .instr .add [.register "c", .register "a", .register "a"],
      .instr .add [.register "b", .register "b", .register "a"]]
    let a : Interval := ⟨"a", 1, 3, none, some 0⟩
    let b : Interval := ⟨"b", 2, 3, none, some 1⟩
    let c : Interval := ⟨"c", 1, 2, none, some 2⟩
    (Spillable [a, b, c] [4, 3] ∧ code.Accommodates [a, b, c] ∧
      code.Overdraws [a, b, c] [4] ∧ ¬ code.Overdraws [a, c] [4]) ∧
    (code.spill [a, b, c] [4]).result = .error .outOfTemporaries ∧
    (∃ groups, (code.spill [a, c] [4]).result = .ok groups) ∧
    ∃ groups, (code.spill [c, b, a] [3, 4]).result = .ok groups := by
  intro code a b c
  have hspillable : Spillable [a, b, c] [4, 3] := ⟨by decide, by decide⟩
  have hone : Spillable [a, b, c] [4] := ⟨by decide, by decide⟩
  have hfew : Spillable [a, c] [4] := ⟨by decide, by decide⟩
  have hroom : code.Accommodates [a, b, c] := ⟨rfl, by simp [a, b, c], 5, by decide⟩
  have hover : code.Overdraws [a, b, c] [4] := by decide
  have hnot : ¬ code.Overdraws [a, c] [4] := by decide
  refine ⟨⟨hspillable, hroom, hover, hnot⟩, ?_, ?_, ?_⟩
  · exact (spill_outOfTemporaries_iff (by simp) hone hroom).1.mpr hover
  · exact (spill_outOfTemporaries_iff (by simp) hfew ⟨rfl, by simp [a, c], 5, by decide⟩).2.1 hnot
  · have htwo := (spill_outOfTemporaries_iff (by simp) hspillable hroom).2
    exact (htwo.2 [c, b, a] [3, 4] (by decide) (by decide)).mpr (htwo.1 (by decide))

end TurtleAlloc
