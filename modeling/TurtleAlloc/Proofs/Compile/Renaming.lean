import Mathlib
import TurtleAlloc.Proofs.Compile.Placement
import TurtleAlloc.Proofs.Spill.Relabel

/-!
# Renaming one register after the other

Allocated registers are renamed all at once.  The same comes out if they are replaced in the whole
stream one after the other, in any order.

* `Interval.redirect` — what one replacement makes of a name.
* `Interval.Independent` — no replacement introduces a name that another one looks for; then several
  replacements in a row do to a name what the one for that name does (`foldl_redirect`).
* `Code.install` — one replacement in a whole stream.
* `Placement.independent` — the replacements that allocation asks for are independent.
* `assign_eq_foldl_install` — the two ways of renaming agree.
-/

namespace TurtleAlloc

namespace Interval

/-- What becomes of a name when the register of an interval is replaced by its location. -/
def redirect (name : String) (interval : Interval) : String :=
  if name = interval.register then interval.location else name

/-- The intervals have different registers, and none is located in the register of another. -/
structure Independent (order : List Interval) : Prop where
  nodup : (order.map Interval.register).Nodup
  location_ne : ∀ i ∈ order, ∀ j ∈ order, i.location = j.register → i = j

variable {order : List Interval} {i j : Interval} {name : String}

theorem Independent.of_cons (h : Independent (j :: order)) : Independent order :=
  ⟨h.nodup.of_cons, fun a ha b hb => h.location_ne a (.tail j ha) b (.tail j hb)⟩

theorem foldl_redirect_of_notMem (h : name ∉ order.map Interval.register) :
    order.foldl redirect name = name := by
  induction order with
  | nil => rfl
  | cons j order ih =>
    rw [List.map_cons, List.mem_cons, not_or] at h
    rw [List.foldl_cons, redirect, if_neg h.1]
    exact ih h.2

/-- **Independent replacements** do to a register what its own one does. -/
theorem foldl_redirect (h : Independent order) (hi : i ∈ order) :
    order.foldl redirect i.register = i.location := by
  induction order with
  | nil => cases hi
  | cons j order ih =>
    have hfresh : j.register ∉ order.map Interval.register := (List.nodup_cons.mp h.nodup).1
    rw [List.foldl_cons]
    rcases List.mem_cons.mp hi with rfl | hmem
    · -- what it is replaced by is not looked for any more
      rw [redirect, if_pos rfl]
      refine foldl_redirect_of_notMem fun hlater => ?_
      obtain ⟨k, hk, hregister⟩ := List.mem_map.mp hlater
      have heq := h.location_ne i List.mem_cons_self k (.tail i hk) hregister.symm
      exact hfresh (heq ▸ List.mem_map_of_mem hk)
    · have hne : i.register ≠ j.register := fun heq => hfresh (heq ▸ List.mem_map_of_mem hmem)
      rw [redirect, if_neg hne]
      exact ih h.of_cons hmem

end Interval

namespace Code

/-- The stream with the register of an interval replaced by its location. -/
def install (code : Code) (interval : Interval) : Code :=
  code.rename interval.register interval.location

theorem foldl_install (order : List Interval) (code : Code) :
    order.foldl install code = code.map (Line.mapRegisters fun name =>
      order.foldl Interval.redirect name) := by
  induction order generalizing code with
  | nil => exact (List.map_id'' Line.mapRegisters_id code).symm
  | cons interval order ih =>
    rw [List.foldl_cons, ih, install, rename, List.map_map]
    refine List.map_congr_left fun line _ => ?_
    exact Line.mapRegisters_mapRegisters _ _ line

end Code

variable {code : Code} {pool : Nat} {allocated order : List Interval}

theorem Placement.independent (h : Placement code pool allocated) (havoids : code.Avoids pool)
    (horder : order.Perm (allocated.filter fun i => i.physical.isSome)) :
    Interval.Independent order := by
  have hmem : ∀ i ∈ order, i ∈ allocated :=
    fun i hi => (List.mem_filter.mp (horder.mem_iff.mp hi)).1
  constructor
  · rw [(horder.map _).nodup_iff]
    exact (List.filter_sublist.map _).nodup h.nodup
  · intro i hi j hj hlocation
    have hregister := h.register_eq_of_location havoids (Nat.le_refl pool) (hmem i hi)
      (h.mem_names j (hmem j hj)) hlocation
    exact h.eq_of_register (hmem i hi) (hmem j hj) hregister

/-- **Renaming all registers at once is renaming them one after the other**, in any order, if no
register of the stream has the name of an allocatable one. -/
theorem assign_eq_foldl_install (code : Code) (pool : Nat) (havoids : code.Avoids pool)
    (order : List Interval) (horder : order.Perm
      ((allocate pool code.liveIntervals).value.filter fun i => i.physical.isSome)) :
    code.assign (allocate pool code.liveIntervals).value = order.foldl Code.install code := by
  have hplacement := placement_allocate code pool
  have hindependent := hplacement.independent havoids horder
  rw [Code.foldl_install]
  refine List.ext_getElem? fun index => ?_
  rw [Code.getElem?_assign, List.getElem?_map]
  cases hget : code[index]? with
  | none => rfl
  | some line =>
    refine congrArg some (Line.mapRegisters_congr fun name hname => ?_)
    obtain ⟨i, hi, rfl, _, hlocation⟩ := hplacement.exists_mem_allocated hget hname
    rw [hlocation]
    by_cases hphysical : i.physical.isSome = true
    · have hmem := horder.mem_iff.mpr (List.mem_filter.mpr ⟨hi, hphysical⟩)
      exact (Interval.foldl_redirect hindependent hmem).symm
    · -- a spilled register is not replaced at all
      rw [Interval.location, Option.not_isSome_iff_eq_none.mp hphysical, Option.getD_none]
      refine (Interval.foldl_redirect_of_notMem fun hmem => ?_).symm
      obtain ⟨j, hj, hregister⟩ := List.mem_map.mp hmem
      obtain ⟨hj, hsome⟩ := List.mem_filter.mp (horder.mem_iff.mp hj)
      rw [hplacement.eq_of_register hj hi hregister] at hsome
      exact hphysical hsome

/-- Of three registers one is spilled, and the other two share a register, one after the other; the
frame pointer stays what it is.  Here they are replaced from the last to the first. -/
theorem assign_eq_foldl_install_shared :
    let code : Code := [.instr .li [.register "a", .number 1],
      .instr .li [.register "r7", .number 2],
      .instr .add [.register "fp", .register "a", .register "fp"],
      .instr .cmp [.register "r7", .register "r7"], .instr .li [.register "b", .number 3]]
    let order : List Interval := [⟨"b", 4, 5, some "r0", none⟩, ⟨"fp", 2, 3, some "fp", none⟩,
      ⟨"a", 0, 3, some "r0", none⟩]
    (code.Avoids 1 ∧ order.Perm
      ((allocate 1 code.liveIntervals).value.filter fun i => i.physical.isSome)) ∧
    code.assign (allocate 1 code.liveIntervals).value =
      ((code.rename "b" "r0").rename "fp" "fp").rename "a" "r0" := by
  intro code order
  have havoids : code.Avoids 1 := by decide
  have horder : order.Perm
      ((allocate 1 code.liveIntervals).value.filter fun i => i.physical.isSome) := by
    decide +kernel
  exact ⟨⟨havoids, horder⟩, assign_eq_foldl_install code 1 havoids order horder⟩

end TurtleAlloc
