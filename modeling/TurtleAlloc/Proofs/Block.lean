import Mathlib
import TurtleAlloc.Block

/-!
# Basic blocks are determined

* `Code.Straight` — code that is entered at its first line only and left after its last one only.
* `Code.attach`, `Code.pieces_append` — straight code in front of a stream becomes a piece of its
  own, or the front of the first piece.
* `Code.IsCut` — straight pieces, each boundary between which has a reason; `isCut_pieces` says that
  the pieces of a stream are of this kind, `pieces_flatten` that no other pieces are.
* `isPartition_iff` — the same of blocks, with their positions.
-/

namespace TurtleAlloc

namespace Code

/-! ## Straight code -/

/-- No label but in the first line, no terminator but in the last. -/
structure Straight (code : Code) : Prop where
  ne_nil : code ≠ []
  label_first : ∀ (position : Nat) (name : String),
    code[position]? = some (.label name) → position = 0
  terminator_last : ∀ (position : Nat) (line : Line), code[position]? = some line →
    line.isTerminator = true → position + 1 = code.length

/-- Whether the last line of a stream is a terminator. -/
def endsWithTerminator (code : Code) : Bool :=
  code.getLast?.any Line.isTerminator

/-- Why a block ends between two pieces of code. -/
def Splits (left right : Code) : Prop :=
  left.endsWithTerminator = true ∨ right.startsWithLabel = true

variable {code front piece rest : Code} {line next : Line} {cut : List Code}

theorem straight_singleton (line : Line) : Straight [line] := by
  refine ⟨List.cons_ne_nil _ _, fun position _ hget => ?_, fun position _ hget _ => ?_⟩
  · exact Nat.lt_one_iff.mp (List.getElem?_eq_some_iff.mp hget).1
  · rw [Nat.lt_one_iff.mp (List.getElem?_eq_some_iff.mp hget).1, List.length_singleton]

theorem straight_cons_cons :
    Straight (line :: next :: code) ↔
      line.isTerminator = false ∧ next.isLabel = false ∧ Straight (next :: code) := by
  constructor
  · rintro ⟨_, hlabel, hterminator⟩
    refine ⟨?_, ?_, List.cons_ne_nil _ _, ?_, ?_⟩
    · refine Bool.eq_false_iff.mpr fun hline => ?_
      cases hterminator 0 line rfl hline
    · cases next with
      | label name => cases hlabel 1 name rfl
      | instr opcode operands => rfl
    · intro position name hget
      cases hlabel (position + 1) name hget
    · intro position other hget hother
      exact Nat.succ_inj.mp (hterminator (position + 1) other hget hother)
  · rintro ⟨hline, hnext, _, hlabel, hterminator⟩
    refine ⟨List.cons_ne_nil _ _, ?_, ?_⟩
    · intro position name hget
      cases position with
      | zero => rfl
      | succ position =>
        obtain rfl := hlabel position name hget
        cases hget
        cases hnext
    · intro position other hget hother
      cases position with
      | zero =>
        cases hget
        exact absurd hother (Bool.eq_false_iff.mp hline)
      | succ position => exact congrArg (· + 1) (hterminator position other hget hother)

theorem splits_cons_cons :
    Splits (line :: next :: front) piece ↔ Splits (next :: front) piece := Iff.rfl

theorem splits_iff :
    Splits front piece ↔ (∃ line ∈ front.getLast?, line.isTerminator = true) ∨
      ∃ name, piece.head? = some (.label name) := by
  refine or_congr (Option.any_eq_true ..) ?_
  cases piece with
  | nil => simp [startsWithLabel]
  | cons line piece => cases line <;> simp [startsWithLabel, Line.isLabel]

/-- Straight code without a reason to end goes on in straight code. -/
theorem Straight.append (hfront : Straight front) (hpiece : Straight piece)
    (h : ¬ Splits front piece) : Straight (front ++ piece) := by
  induction front with
  | nil => exact hpiece
  | cons line front ih =>
    cases front with
    | nil =>
      cases piece with
      | nil => exact hfront
      | cons next piece =>
        refine straight_cons_cons.mpr ⟨?_, ?_, hpiece⟩
        · exact Bool.eq_false_iff.mpr fun hline => h (.inl hline)
        · exact Bool.eq_false_iff.mpr fun hnext => h (.inr hnext)
    | cons next front =>
      obtain ⟨hline, hnext, hrest⟩ := straight_cons_cons.mp hfront
      exact straight_cons_cons.mpr ⟨hline, hnext, ih hrest h⟩

/-! ## Cutting -/

/-- Pieces with some code in front: it is a piece of its own, or part of the first one. -/
def attach (front : Code) : List Code → List Code
  | [] => [front]
  | piece :: later =>
    if front.endsWithTerminator || startsWithLabel piece then front :: piece :: later
    else (front ++ piece) :: later

theorem pieces_cons (line : Line) (rest : Code) :
    pieces (line :: rest) = attach [line] (pieces rest) := by
  rw [pieces]
  cases pieces rest <;> rfl

theorem attach_of_splits {later : List Code} (h : Splits front piece) :
    attach front (piece :: later) = front :: piece :: later := by
  rw [attach, if_pos (by simpa [Splits] using h)]

theorem attach_of_not_splits {later : List Code} (h : ¬ Splits front piece) :
    attach front (piece :: later) = (front ++ piece) :: later := by
  rw [attach, if_neg (by simpa [Splits] using h)]

theorem attach_attach (hfront : Straight (line :: next :: front)) (cut : List Code) :
    attach [line] (attach (next :: front) cut) = attach (line :: next :: front) cut := by
  obtain ⟨hline, hnext, _⟩ := straight_cons_cons.mp hfront
  have hjoins : ∀ piece, ¬ Splits [line] (next :: piece) := by
    rintro piece (h | h)
    · exact Bool.eq_false_iff.mp hline h
    · exact Bool.eq_false_iff.mp hnext h
  cases cut with
  | nil => exact attach_of_not_splits (hjoins _)
  | cons piece later =>
    by_cases h : Splits (next :: front) piece
    · rw [attach_of_splits h, attach_of_not_splits (hjoins _),
        attach_of_splits (splits_cons_cons.mpr h), List.singleton_append]
    · rw [attach_of_not_splits h, attach_of_not_splits (mt splits_cons_cons.mp h)]
      exact attach_of_not_splits (hjoins _)

/-- **Cutting a stream with straight code in front.** -/
theorem pieces_append (hfront : Straight front) (rest : Code) :
    pieces (front ++ rest) = attach front (pieces rest) := by
  induction front with
  | nil => exact absurd rfl hfront.ne_nil
  | cons line front ih =>
    rw [List.cons_append, pieces_cons]
    cases front with
    | nil => rfl
    | cons next front =>
      rw [ih (straight_cons_cons.mp hfront).2.2, attach_attach hfront]

/-- Straight pieces that end for a reason. -/
structure IsCut (cut : List Code) : Prop where
  straight : ∀ piece ∈ cut, Straight piece
  splits : cut.IsChain Splits

theorem IsCut.attach (h : IsCut cut) (hfront : Straight front) : IsCut (attach front cut) := by
  cases cut with
  | nil => exact ⟨by simpa [Code.attach] using hfront, List.isChain_singleton _⟩
  | cons piece later =>
    have hpiece := h.straight piece List.mem_cons_self
    by_cases hsplits : Splits front piece
    · rw [attach_of_splits hsplits]
      exact ⟨List.forall_mem_cons.mpr ⟨hfront, h.straight⟩,
        List.isChain_cons_cons.mpr ⟨hsplits, h.splits⟩⟩
    · rw [attach_of_not_splits hsplits]
      refine ⟨List.forall_mem_cons.mpr ⟨hfront.append hpiece hsplits, ?_⟩, ?_⟩
      · exact fun other hother => h.straight other (List.mem_cons_of_mem _ hother)
      · cases later with
        | nil => exact List.isChain_singleton _
        | cons following later =>
          obtain ⟨hnext, hlater⟩ := List.isChain_cons_cons.mp h.splits
          refine List.isChain_cons_cons.mpr ⟨?_, hlater⟩
          -- the last line of the first piece is still its last line
          have hlast : (front ++ piece).getLast? = piece.getLast? :=
            List.getLast?_append_of_ne_nil _ hpiece.ne_nil
          rwa [Splits, endsWithTerminator, hlast]

/-- **The pieces of a stream are straight and end for a reason.** -/
theorem isCut_pieces (code : Code) : IsCut code.pieces := by
  induction code with
  | nil => exact ⟨by simp [pieces], List.isChain_nil⟩
  | cons line rest ih =>
    rw [pieces_cons]
    exact ih.attach (straight_singleton line)

/-- **Such pieces are the pieces of the stream that they make up.** -/
theorem IsCut.pieces_flatten (h : IsCut cut) : pieces cut.flatten = cut := by
  induction cut with
  | nil => rfl
  | cons front cut ih =>
    have hrest : IsCut cut :=
      ⟨fun piece hpiece => h.straight piece (List.mem_cons_of_mem _ hpiece), h.splits.tail⟩
    rw [List.flatten_cons, pieces_append (h.straight front List.mem_cons_self), ih hrest]
    cases cut with
    | nil => rfl
    | cons piece later => exact attach_of_splits (List.isChain_cons_cons.mp h.splits).1

/-! ## Positions -/

@[simp] theorem map_code_layOut (start : Nat) (cut : List Code) :
    (layOut start cut).map Block.code = cut := by
  induction cut generalizing start with
  | nil => rfl
  | cons piece later ih => rw [layOut, List.map_cons, ih]

theorem getElem?_layOut (start : Nat) (cut : List Code) (index : Nat) :
    (layOut start cut)[index]? =
      cut[index]?.map fun piece => ⟨start + (cut.take index).flatten.length, piece⟩ := by
  induction cut generalizing start index with
  | nil => rfl
  | cons piece later ih =>
    cases index with
    | zero => rfl
    | succ index =>
      rw [layOut, List.getElem?_cons_succ, List.getElem?_cons_succ, ih, List.take_succ_cons,
        List.flatten_cons, List.length_append, Nat.add_assoc]

end Code

/-! ## Blocks -/

/-- The basic blocks of a stream, by what is true of them. -/
structure IsPartition (code : Code) (blocks : List Block) : Prop where
  ne_nil : ∀ block ∈ blocks, block.code ≠ []
  flatten : (blocks.map Block.code).flatten = code
  /-- A block starts behind the lines of all blocks before it. -/
  start : ∀ (index : Nat) (block : Block), blocks[index]? = some block →
    block.start = ((blocks.take index).map fun earlier => earlier.code.length).sum
  /-- It stops where the next one starts, the last one at the end of the stream. -/
  stop : ∀ (index : Nat) (block : Block), blocks[index]? = some block →
    block.stop = (blocks[index + 1]?.map Block.start).getD code.length
  label_first : ∀ block ∈ blocks, ∀ (position : Nat) (name : String),
    block.code[position]? = some (.label name) → position = 0
  terminator_last : ∀ block ∈ blocks, ∀ (position : Nat) (line : Line),
    block.code[position]? = some line → line.isTerminator = true → position + 1 = block.code.length
  /-- A block ends in a terminator, or the next one begins with a label. -/
  justified : ∀ (index : Nat) (left right : Block), blocks[index]? = some left →
    blocks[index + 1]? = some right →
      (∃ line ∈ left.code.getLast?, line.isTerminator = true) ∨
        ∃ name, right.code.head? = some (.label name)

namespace Code

/-- Straight pieces laid out from the start are blocks. -/
theorem IsCut.isPartition (h : IsCut cut) : IsPartition cut.flatten (layOut 0 cut) := by
  have hpiece : ∀ block ∈ layOut 0 cut, Straight block.code := by
    intro block hblock
    rw [← map_code_layOut 0 cut] at h
    exact h.straight block.code (List.mem_map_of_mem hblock)
  refine ⟨fun block hblock => (hpiece block hblock).ne_nil, by rw [map_code_layOut], ?_, ?_,
    fun block hblock => (hpiece block hblock).label_first,
    fun block hblock => (hpiece block hblock).terminator_last, ?_⟩
  · intro index block hget
    rw [getElem?_layOut, Option.map_eq_some_iff] at hget
    obtain ⟨piece, _, rfl⟩ := hget
    have hlengths := congrArg (List.map List.length) (map_code_layOut 0 cut)
    rw [List.map_map] at hlengths
    rw [Nat.zero_add, List.length_flatten, List.map_take, ← hlengths, ← List.map_take]
    rfl
  · intro index block hget
    rw [getElem?_layOut, Option.map_eq_some_iff] at hget
    obtain ⟨piece, hget, rfl⟩ := hget
    have htake : cut.take (index + 1) = cut.take index ++ [piece] := by
      rw [List.take_add_one, hget, Option.toList_some]
    have hstop : 0 + (cut.take index).flatten.length + piece.length =
        (cut.take (index + 1)).flatten.length := by
      rw [htake, List.flatten_append, List.length_append, List.flatten_singleton, Nat.zero_add]
    rw [Block.stop, hstop, getElem?_layOut]
    cases hnext : cut[index + 1]? with
    | some next => rw [Option.map_some, Option.map_some, Option.getD_some, Nat.zero_add]
    | none => rw [List.take_of_length_le (List.getElem?_eq_none_iff.mp hnext)]; rfl
  · intro index left right hleft hright
    rw [← splits_iff]
    have hsplits := h.splits
    rw [← map_code_layOut 0 cut, List.isChain_map] at hsplits
    obtain ⟨hlt, rfl⟩ := List.getElem?_eq_some_iff.mp hright
    obtain ⟨_, rfl⟩ := List.getElem?_eq_some_iff.mp hleft
    exact List.isChain_iff_getElem.mp hsplits index hlt

end Code

variable {code : Code} {blocks : List Block}

theorem IsPartition.isCut (h : IsPartition code blocks) : Code.IsCut (blocks.map Block.code) := by
  constructor
  · intro piece hpiece
    obtain ⟨block, hblock, rfl⟩ := List.mem_map.mp hpiece
    exact ⟨h.ne_nil block hblock, h.label_first block hblock, h.terminator_last block hblock⟩
  · rw [List.isChain_map, List.isChain_iff_getElem]
    intro index hlt
    exact Code.splits_iff.mpr (h.justified index _ _
      (List.getElem?_eq_getElem (Nat.lt_of_succ_lt hlt)) (List.getElem?_eq_getElem hlt))

/-- **Partitioning finds the basic blocks, and there are no others**: non-empty pieces of the
stream, one behind the other, with labels at the front and terminators at the end only, and with a
reason to end between any two. -/
theorem isPartition_iff (code : Code) (blocks : List Block) :
    IsPartition code blocks ↔ blocks = code.partition.value := by
  rw [Code.value_partition, Code.blocks]
  constructor
  · intro h
    have hpieces : code.pieces = blocks.map Block.code := by
      rw [← h.flatten, h.isCut.pieces_flatten]
    rw [hpieces]
    refine List.ext_getElem? fun index => ?_
    rw [Code.getElem?_layOut, List.getElem?_map]
    cases hget : blocks[index]? with
    | none => rfl
    | some block =>
      have hstart := h.start index block hget
      obtain ⟨start, piece⟩ := block
      simp only at hstart
      rw [Option.map_some, Option.map_some, hstart, Nat.zero_add, List.length_flatten,
        ← List.map_take, List.map_map]
      rfl
  · rintro rfl
    have h := code.isCut_pieces.isPartition
    rwa [code.flatten_pieces] at h

end TurtleAlloc
