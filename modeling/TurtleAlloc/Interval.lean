/-!
# Live intervals

An `Interval` says over which lines of a stream a register is in use, and where its value is
kept: in a physical register, in a spill slot, or not decided yet.

* `Interval.contains`, `Interval.overlaps`, `Interval.isSpilled` — the tests that allocation and
  spilling need: `contains`, `overlaps` and `is_spilled` of a live interval;
* `Interval.text` — how an interval is written in a report.
-/

namespace TurtleAlloc

/-- The lines `start ≤ i < stop` over which a register is in use, and where it is kept. -/
structure Interval where
  /-- The register as the program names it. -/
  register : String
  start : Nat
  stop : Nat
  /-- The physical register that holds the value. -/
  physical : Option String := none
  /-- The number of the spill slot that holds the value. -/
  slot : Option Nat := none
  deriving DecidableEq, Repr

namespace Interval

/-- Whether a line lies in the interval. -/
def contains (interval : Interval) (index : Nat) : Bool :=
  interval.start ≤ index && index < interval.stop

/-- Whether each interval starts before the other stops. -/
def overlaps (a b : Interval) : Bool :=
  a.start < b.stop && b.start < a.stop

/-- Whether the value is kept in a slot and in no physical register. -/
def isSpilled (interval : Interval) : Bool :=
  interval.physical.isNone && interval.slot.isSome

/-- An interval with its place; a physical register is shown before a slot. -/
def text (interval : Interval) : String :=
  let range := interval.register ++ " [" ++ interval.start.repr ++ ", " ++ interval.stop.repr ++ ")"
  match interval.physical, interval.slot with
  | some name, _ => range ++ " -> " ++ name
  | none, some slot => range ++ " -> spill slot " ++ slot.repr
  | none, none => range

theorem contains_iff {interval : Interval} {index : Nat} :
    interval.contains index = true ↔ interval.start ≤ index ∧ index < interval.stop := by
  simp only [contains, Bool.and_eq_true, decide_eq_true_eq]

theorem overlaps_of_contains {a b : Interval} {index : Nat} (ha : a.contains index = true)
    (hb : b.contains index = true) : a.overlaps b = true := by
  rw [contains_iff] at ha hb
  simp only [overlaps, Bool.and_eq_true, decide_eq_true_eq]
  omega

theorem overlaps_comm (a b : Interval) : a.overlaps b = b.overlaps a :=
  Bool.and_comm ..

theorem overlaps_eq_false_of_stop_le {a b : Interval} (h : b.stop ≤ a.start) :
    a.overlaps b = false := by
  simp only [overlaps, Bool.and_eq_false_iff, decide_eq_false_iff_not]
  omega

end Interval

/-- The entries of a numbered list come in the order of their numbers. -/
theorem zipIdx_pairwise {α : Type} (list : List α) :
    list.zipIdx.Pairwise fun a b => a.2 < b.2 := by
  rw [← List.pairwise_map, List.zipIdx_map_snd]
  exact List.pairwise_lt_range'

end TurtleAlloc
