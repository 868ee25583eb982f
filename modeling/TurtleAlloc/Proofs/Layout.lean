import Mathlib
import TurtleAlloc.Proofs.Frame
import TurtleAlloc.Spill

/-!
# Groups in the code

* `Segment`, `Group.segment` — a stretch of code cut into movements, one line, and movements again;
  `Code.ofGroups_eq_segments` says that groups are laid out segment by segment.
* `Group.ReadsBack` — the code of every access of a group reads back as the movement it is for.
* `Code.groupStart`, `Code.imageOf` — where a group begins in the code, and where its line stands.
* `Code.getElem?_ofGroups_iff` — the code consists of the lines of the groups, in their order.
-/

namespace TurtleAlloc

/-! ## Segments -/

/-- The code of some movements, a line, and the code of some more movements. -/
structure Segment where
  loads : List Code
  line : Line
  stores : List Code
  deriving DecidableEq, Repr

/-- A segment as code. -/
def Segment.code (segment : Segment) : Code :=
  segment.loads.flatten ++ segment.line :: segment.stores.flatten

namespace Group

variable {group : Group}

/-- The code of a group, with the code of its accesses told apart. -/
def segment (group : Group) : Segment :=
  ⟨group.loads.map Access.load, group.line, group.stores.map Access.store⟩

@[simp] theorem code_segment (group : Group) : group.segment.code = group.code := by
  simp [segment, Segment.code, code, List.flatMap_def]

/-- The code of every access moves a word between its temporary and its slot, whose offset it spells
modulo `2 ^ 16`. -/
structure ReadsBack (group : Group) : Prop where
  loads : ∀ a ∈ group.loads,
    a.load.move? = some ⟨.load, a.temporaryName, a.offset.toInt.bmod 65536⟩
  stores : ∀ a ∈ group.stores,
    a.store.move? = some ⟨.store, a.temporaryName, a.offset.toInt.bmod 65536⟩

theorem readsBack (group : Group) : group.ReadsBack :=
  ⟨fun _ _ => move?_slotAccess .., fun _ _ => move?_slotAccess ..⟩

/-- The code of the loads is what a group has in front of its line. -/
theorem mem_loads_iff {line : Line} :
    line ∈ group.loads.flatMap Access.load ↔
      ∃ q < (group.loads.flatMap Access.load).length, group.code[q]? = some line := by
  rw [List.mem_iff_getElem?]
  constructor
  · rintro ⟨q, hq⟩
    have hlt := (List.getElem?_eq_some_iff.mp hq).1
    exact ⟨q, hlt, by rw [code, List.getElem?_append_left hlt, hq]⟩
  · rintro ⟨q, hlt, hq⟩
    rw [code, List.getElem?_append_left hlt] at hq
    exact ⟨q, hq⟩

/-- The code of the stores is what a group has behind its line. -/
theorem mem_stores_iff {line : Line} :
    line ∈ group.stores.flatMap Access.store ↔
      ∃ q > (group.loads.flatMap Access.load).length, group.code[q]? = some line := by
  rw [List.mem_iff_getElem?]
  constructor
  · rintro ⟨q, hq⟩
    refine ⟨(group.loads.flatMap Access.load).length + (q + 1), by omega, ?_⟩
    rw [code, List.getElem?_append_right (by omega), Nat.add_sub_cancel_left,
      List.getElem?_cons_succ, hq]
  · rintro ⟨q, hlt, hq⟩
    obtain ⟨r, rfl⟩ := Nat.exists_eq_add_of_lt hlt
    rw [code, List.getElem?_append_right (by omega), Nat.add_assoc, Nat.add_sub_cancel_left,
      List.getElem?_cons_succ] at hq
    exact ⟨r, hq⟩

end Group

theorem length_slotAccess_eq_one_iff {opcode : Opcode} {temporary : String} {offset : Int32} :
    (slotAccess opcode temporary offset).length = 1 ↔ isNear offset = true := by
  unfold slotAccess
  split_ifs with hnear <;> simp [hnear]

namespace Code

theorem ofGroups_eq_segments (groups : List Group) :
    ofGroups groups = (groups.map Group.segment).flatMap Segment.code := by
  simp [ofGroups, List.flatMap_map]

/-! ## Positions -/

/-- Where the group of a line begins in the code. -/
def groupStart (groups : List Group) (index : Nat) : Nat :=
  (ofGroups (groups.take index)).length

/-- Where the line of a group stands in the code, behind its loads. -/
def imageOf (groups : List Group) (index : Nat) : Nat :=
  groupStart groups index +
    (groups[index]?.elim 0 fun group => (group.loads.flatMap Access.load).length)

variable {groups : List Group} {group : Group} {line : Line} {position index other q : Nat}

@[simp] theorem groupStart_cons_succ (group : Group) (groups : List Group) (index : Nat) :
    groupStart (group :: groups) (index + 1) = group.code.length + groupStart groups index :=
  List.length_append

theorem imageOf_eq (hget : groups[index]? = some group) :
    imageOf groups index = groupStart groups index + (group.loads.flatMap Access.load).length := by
  rw [imageOf, hget, Option.elim_some]

theorem groupStart_add_le (hget : groups[index]? = some group) (hlt : index < other) :
    groupStart groups index + group.code.length ≤ groupStart groups other := by
  induction groups generalizing index other with
  | nil => cases hget
  | cons first rest ih =>
    obtain ⟨other, rfl⟩ : ∃ k, other = k + 1 := ⟨other - 1, by omega⟩
    cases index with
    | zero =>
      cases hget
      rw [groupStart_cons_succ, show groupStart (group :: rest) 0 = 0 from rfl]
      omega
    | succ index =>
      rw [groupStart_cons_succ, groupStart_cons_succ, Nat.add_assoc]
      exact Nat.add_le_add_left (ih hget (Nat.lt_of_succ_lt_succ hlt)) _

/-- **The code of groups** consists of their lines, each behind the start of its group. -/
theorem getElem?_ofGroups_iff :
    (ofGroups groups)[position]? = some line ↔ ∃ index group q, groups[index]? = some group ∧
      group.code[q]? = some line ∧ position = groupStart groups index + q := by
  induction groups generalizing position with
  | nil => simp [ofGroups]
  | cons first rest ih =>
    have hcode : ofGroups (first :: rest) = first.code ++ ofGroups rest := rfl
    rw [hcode]
    constructor
    · intro hget
      by_cases hlt : position < first.code.length
      · rw [List.getElem?_append_left hlt] at hget
        exact ⟨0, first, position, rfl, hget, (Nat.zero_add _).symm⟩
      · rw [List.getElem?_append_right (Nat.le_of_not_lt hlt)] at hget
        obtain ⟨index, group, q, hgroup, hline, heq⟩ := ih.mp hget
        refine ⟨index + 1, group, q, hgroup, hline, ?_⟩
        rw [groupStart_cons_succ]
        omega
    · rintro ⟨index, group, q, hgroup, hline, rfl⟩
      cases index with
      | zero =>
        cases hgroup
        have hlt := (List.getElem?_eq_some_iff.mp hline).1
        rw [show groupStart (first :: rest) 0 = 0 from rfl, Nat.zero_add,
          List.getElem?_append_left hlt, hline]
      | succ index =>
        rw [groupStart_cons_succ, Nat.add_assoc, List.getElem?_append_right (Nat.le_add_right ..),
          Nat.add_sub_cancel_left]
        exact ih.mpr ⟨index, group, q, hgroup, hline, rfl⟩

theorem getElem?_imageOf (hget : groups[index]? = some group) :
    (ofGroups groups)[imageOf groups index]? = some group.line := by
  rw [imageOf_eq hget, getElem?_ofGroups_iff]
  refine ⟨index, group, _, hget, ?_, rfl⟩
  rw [Group.code, List.getElem?_append_right (Nat.le_refl _), Nat.sub_self]
  rfl

theorem lt_imageOf_of_lt (hget : groups[index]? = some group) (hq : q < group.code.length)
    (hlt : index < other) : groupStart groups index + q < imageOf groups other := by
  have hle := groupStart_add_le hget hlt
  unfold imageOf
  omega

theorem imageOf_lt_of_lt (hget : groups[index]? = some group) (hlt : other < index) (q : Nat) :
    imageOf groups other < groupStart groups index + q := by
  obtain ⟨earlier, hearlier⟩ : ∃ earlier, groups[other]? = some earlier :=
    ⟨_, List.getElem?_eq_getElem (hlt.trans (List.getElem?_eq_some_iff.mp hget).1)⟩
  have hle := groupStart_add_le hearlier hlt
  rw [Group.code, List.length_append, List.length_cons] at hle
  rw [imageOf_eq hearlier]
  omega

section Order

variable (hget : groups[index]? = some group) (hq : q < group.code.length)

include hget hq

/-- A line of a group and the image of any line stand in the order of their groups.  In one group
the image stands behind the loads. -/
theorem imageOf_cases (other : Nat) :
    index < other ∧ groupStart groups index + q < imageOf groups other ∨
    index = other ∧ imageOf groups other =
      groupStart groups index + (group.loads.flatMap Access.load).length ∨
    other < index ∧ imageOf groups other < groupStart groups index + q := by
  rcases Nat.lt_trichotomy index other with hlt | rfl | hlt
  · exact .inl ⟨hlt, lt_imageOf_of_lt hget hq hlt⟩
  · exact .inr (.inl ⟨rfl, imageOf_eq hget⟩)
  · exact .inr (.inr ⟨hlt, imageOf_lt_of_lt hget hlt q⟩)

theorem lt_imageOf_iff :
    groupStart groups index + q < imageOf groups other ↔
      index < other ∨ index = other ∧ q < (group.loads.flatMap Access.load).length := by
  have hcases := imageOf_cases hget hq other
  omega

theorem imageOf_lt_iff :
    imageOf groups other < groupStart groups index + q ↔
      other < index ∨ other = index ∧ (group.loads.flatMap Access.load).length < q := by
  have hcases := imageOf_cases hget hq other
  omega

theorem ne_imageOf (hne : q ≠ (group.loads.flatMap Access.load).length) :
    groupStart groups index + q ≠ imageOf groups other := by
  have hcases := imageOf_cases hget hq other
  omega

end Order

end Code

end TurtleAlloc
