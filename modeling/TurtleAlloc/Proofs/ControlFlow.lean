import Mathlib
import TurtleAlloc.LabelTable
import TurtleAlloc.Proofs.Liveness

/-!
# Live intervals and the flow of control

An interval runs from the first line that names a register to the last one, in the order in which
lines are laid out.  Control may leave it in between and come back by a jump.

* `Code.successors` — the lines that control may reach from a line in one step.
* `Code.LiveAlong` — a path that carries a value of a register from the line that writes it to a
  line that reads it.
* `Interval.CrossedBy` — a step back that comes from behind an interval or leads in front of it.
* `liveAlong_contains_iff` — such a path stays inside the interval exactly if none of its steps
  crosses the interval; `loop_leaves_interval` is a loop that does.
-/

namespace TurtleAlloc

/-! ## Where control may go -/

/-- The name of a label operand. -/
def Operand.label? : Operand → Option String
  | register _ => none
  | label name => some name
  | number _ => none

namespace Line

/-- Whether control may go on to the next line. -/
def fallsThrough : Line → Bool
  | label _ => true
  | instr opcode _ => opcode ∉ [Opcode.jmp, .jr, .ret, .hlt]

/-- The labels that a line may jump to. -/
def jumpLabels : Line → List String
  | label _ => []
  | instr opcode operands =>
    if opcode = .jmp ∨ opcode.isConditionalBranch then operands.filterMap Operand.label? else []

end Line

namespace Code

/-- The lines that control may reach from a line in one step. -/
def successors (code : Code) (table : LabelTable) (index : Nat) : List Nat :=
  match code[index]? with
  | none => []
  | some line =>
    (if line.fallsThrough then [index + 1] else []) ++ line.jumpLabels.filterMap table.resolve?

/-- A path of control through a stream with distinct labels: its first line writes a register that
is not pinned, its last line reads that register, and no line between the two writes it. -/
structure LiveAlong (code : Code) (table : LabelTable) (name : String) (path : List Nat) :
    Prop where
  labels : LabelTable.ofCode code = .ok table
  unpinned : Register.isPinned name = false
  flows : path.IsChain fun index next => next ∈ code.successors table index
  later : 2 ≤ path.length
  writes : ∃ index ∈ path.head?, code.Writes index name
  reads : ∃ index ∈ path.getLast?, code.Reads index name
  keeps : ∀ index ∈ path.tail.dropLast, ¬ code.Writes index name

end Code

/-! ## Steps across the ends of an interval -/

namespace Interval

variable {interval : Interval} {index next : Nat} {path : List Nat}

/-- A step back over an end of the interval: it comes from behind the interval, or it leads in
front of it. -/
def CrossedBy (interval : Interval) (index next : Nat) : Prop :=
  next ≤ index ∧ (interval.stop ≤ index ∧ next < interval.stop ∨
    interval.start ≤ index ∧ next < interval.start)

theorem not_crossedBy_of_contains (hindex : interval.contains index = true)
    (hnext : interval.contains next = true) : ¬ interval.CrossedBy index next := by
  rw [contains_iff] at hindex hnext
  unfold CrossedBy
  omega

/-- One step: from inside, control stays inside or passes the end of the interval. -/
theorem contains_or_stop_le (hindex : interval.contains index = true)
    (h : ¬ interval.CrossedBy index next) :
    interval.contains next = true ∨ interval.stop ≤ next := by
  rw [contains_iff] at hindex ⊢
  unfold CrossedBy at h
  omega

theorem stop_le_of_not_crossedBy (hindex : interval.stop ≤ index)
    (h : ¬ interval.CrossedBy index next) : interval.stop ≤ next := by
  unfold CrossedBy at h
  omega

theorem stop_le_getLast (hchain : (index :: path).IsChain fun a b => ¬ interval.CrossedBy a b)
    (hindex : interval.stop ≤ index) :
    ∀ last ∈ (index :: path).getLast?, interval.stop ≤ last := by
  induction path generalizing index with
  | nil =>
    intro last hlast
    simp only [List.getLast?_singleton, Option.mem_some_iff] at hlast
    exact hlast ▸ hindex
  | cons next rest ih =>
    obtain ⟨hstep, hrest⟩ := List.isChain_cons_cons.mp hchain
    rw [List.getLast?_cons_cons]
    exact ih hrest (stop_le_of_not_crossedBy hindex hstep)

/-- **A path between two lines of an interval stays inside exactly if it does not cross it.** -/
theorem contains_path_iff (hhead : ∃ first ∈ path.head?, interval.contains first = true)
    (hlast : ∃ last ∈ path.getLast?, interval.contains last = true) :
    (∀ index ∈ path, interval.contains index = true) ↔
      path.IsChain fun index next => ¬ interval.CrossedBy index next := by
  constructor
  · intro h
    have hpairs : path.Pairwise fun index next => ¬ interval.CrossedBy index next := by
      rw [List.pairwise_iff_forall_sublist]
      intro index next hsub
      apply not_crossedBy_of_contains
      · exact h index (hsub.subset (by simp))
      · exact h next (hsub.subset (by simp))
    exact hpairs.isChain
  · intro hchain
    induction path with
    | nil => simp
    | cons first rest ih =>
      simp only [List.head?_cons, Option.mem_some_iff, exists_eq_left'] at hhead
      cases rest with
      | nil => simpa using hhead
      | cons next rest =>
        obtain ⟨hstep, hrest⟩ := List.isChain_cons_cons.mp hchain
        rw [List.getLast?_cons_cons] at hlast
        -- once behind the interval, the path could not come back to its last line
        have hnext : interval.contains next = true := by
          rcases contains_or_stop_le hhead hstep with hinside | hbehind
          · exact hinside
          · obtain ⟨last, hmem, hcontains⟩ := hlast
            have hle := stop_le_getLast hrest hbehind last hmem
            rw [contains_iff] at hcontains
            omega
        intro index hindex
        rcases List.mem_cons.mp hindex with rfl | hindex
        · exact hhead
        · exact ih ⟨next, rfl, hnext⟩ hlast hrest index hindex

end Interval

/-! ## Paths that carry a value -/

theorem Code.exists_interval_of_referenced {code : Code} {index : Nat} {line : Line}
    {name : String} (hget : code[index]? = some line) (hname : name ∈ line.referenced) :
    ∃ interval, code.liveIntervals.find? (fun i => i.register == name) = some interval ∧
      interval.contains index = true := by
  obtain ⟨interval, hmem, rfl, hcontains⟩ :=
    code.covers_liveIntervals.contains (index, name) (Code.mem_references.mpr ⟨line, hget, hname⟩)
  exact ⟨interval, Interval.find?_register code.covers_liveIntervals.nodup hmem, hcontains⟩

/-- **Which paths a live interval covers.**  All lines of a path that carries a value of a register
lie in the live interval of the register exactly if no step of the path goes back over an end of
the interval.  This is so for every such path if no jump of the stream leads back over an end. -/
theorem liveAlong_contains_iff {code : Code} {table : LabelTable} {name : String}
    {path : List Nat} (h : code.LiveAlong table name path) :
    ∃ interval, code.liveIntervals.find? (fun i => i.register == name) = some interval ∧
      ((∀ index ∈ path, interval.contains index = true) ↔
        path.IsChain fun index next => ¬ interval.CrossedBy index next) ∧
      ((∀ index, ∀ next ∈ code.successors table index, ¬ interval.CrossedBy index next) →
        ∀ index ∈ path, interval.contains index = true) := by
  obtain ⟨first, hfirst, line, hget, hwrites⟩ := h.writes
  obtain ⟨last, hlast, line', hget', hreads⟩ := h.reads
  obtain ⟨interval, hfind, hcontains⟩ :=
    Code.exists_interval_of_referenced hget (Line.mem_referenced_of_mem_destinations hwrites)
  obtain ⟨interval', hfind', hcontains'⟩ :=
    Code.exists_interval_of_referenced hget' (Line.mem_referenced_of_mem_sources hreads)
  cases hfind.symm.trans hfind'
  have hiff := Interval.contains_path_iff ⟨first, hfirst, hcontains⟩ ⟨last, hlast, hcontains'⟩
  refine ⟨interval, hfind, hiff, fun hjumps => hiff.mpr ?_⟩
  exact h.flows.imp fun index next hnext => hjumps index next hnext

/-- A loop between two lines that name the register is inside its interval. -/
theorem liveAlong_contains_iff_inner_loop :
    let code : Code := [.instr .li [.register "a", .number 1], .label "loop",
      .instr .cmpi [.register "a", .number 0], .instr .beq [.label "loop"],
      .instr .cmpi [.register "a", .number 1]]
    let path := [0, 1, 2, 3, 1, 2, 3, 4]
    code.LiveAlong ⟨[("loop", 1)]⟩ "a" path ∧
      ∃ interval, code.liveIntervals.find? (fun i => i.register == "a") = some interval ∧
        ∀ index ∈ path, interval.contains index = true := by
  intro code path
  have hlive : code.LiveAlong ⟨[("loop", 1)]⟩ "a" path := by
    constructor <;> decide
  obtain ⟨interval, hfind, hiff, _⟩ := liveAlong_contains_iff hlive
  have hinterval : interval = ⟨"a", 0, 5, none, none⟩ := by
    have hvalue : code.liveIntervals.find? (fun i => i.register == "a") =
        some ⟨"a", 0, 5, none, none⟩ := by decide +kernel
    exact Option.some.inj (hfind.symm.trans hvalue)
  subst hinterval
  refine ⟨hlive, _, hfind, hiff.mpr ?_⟩
  unfold Interval.CrossedBy
  decide

/-- The value of `a` is read again in every turn of the loop, but two lines of the loop lie behind
the interval of `a`. -/
theorem loop_leaves_interval :
    let code : Code := [.instr .li [.register "a", .number 1], .label "loop",
      .instr .cmpi [.register "a", .number 0], .instr .li [.register "b", .number 2],
      .instr .jmp [.label "loop"]]
    let path := [0, 1, 2, 3, 4, 1, 2]
    code.LiveAlong ⟨[("loop", 1)]⟩ "a" path ∧
      ¬ ∀ index ∈ path, ∃ interval ∈ code.liveIntervals,
        interval.register = "a" ∧ interval.contains index = true := by
  intro code path
  refine ⟨by constructor <;> decide, ?_⟩
  decide +kernel

end TurtleAlloc
