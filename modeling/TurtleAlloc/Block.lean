import TurtleAlloc.Line
import TurtleAlloc.Log

/-!
# Basic blocks

A basic block is entered at its first line only and left after its last one only: labels stand
at the front of a block, terminators at its end.

* `Block` — a piece of code and the position at which it stands in its stream;
* `Code.pieces` — a stream cut in front of each label and behind each terminator, that is, at its
  `find_leaders`;
* `Code.blocks` — the pieces with their positions;
* `Code.partition` — the same, telling each block: `partition` of the basic-block partitioner.

`flatten_pieces` says that cutting loses nothing.
-/

namespace TurtleAlloc

/-- Consecutive lines of a stream. -/
structure Block where
  /-- The position of the first line. -/
  start : Nat
  code : Code
  deriving DecidableEq, Repr

namespace Block

/-- The position behind the last line. -/
def stop (block : Block) : Nat :=
  block.start + block.code.length

/-- The position behind the last line, if it is a 64-bit number as positions in files are. -/
def stop? (block : Block) : Option Nat :=
  if block.stop < UInt64.size then some block.stop else none

end Block

namespace Code

/-- Whether the first line of a stream declares a label. -/
def startsWithLabel : Code → Bool
  | [] => false
  | line :: _ => line.isLabel

/-- Cut a stream in front of each label and behind each terminator. -/
def pieces : Code → List Code
  | [] => []
  | line :: rest =>
    match pieces rest with
    | [] => [[line]]
    | piece :: later =>
      if line.isTerminator || startsWithLabel piece then [line] :: piece :: later
      else (line :: piece) :: later

/-- Pieces laid out one behind the other from a position on. -/
def layOut (start : Nat) : List Code → List Block
  | [] => []
  | piece :: later => ⟨start, piece⟩ :: layOut (start + piece.length) later

/-- The basic blocks of a stream. -/
def blocks (code : Code) : List Block :=
  layOut 0 code.pieces

/-- The basic blocks of a stream, telling each of them. -/
def partition (code : Code) : Logged (List Block) :=
  let blocks := code.blocks
  ⟨blocks.map fun block => .block block.start block.stop, blocks⟩

@[simp] theorem value_partition (code : Code) : code.partition.value = code.blocks := rfl

/-- Cutting a stream loses nothing. -/
theorem flatten_pieces (code : Code) : code.pieces.flatten = code := by
  induction code with
  | nil => rfl
  | cons line rest ih =>
    rw [pieces]
    split
    · next h => simp_all
    · next piece later h =>
      rw [h] at ih
      split <;> simp_all

end Code

end TurtleAlloc
