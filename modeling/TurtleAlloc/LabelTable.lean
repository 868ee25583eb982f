import TurtleAlloc.Line

/-!
# Label tables

A `LabelTable` says at which line of a stream each label is declared.  A stream has one only if
no label is declared twice.

* `LabelTable.ofCode` — `build`, the table of a stream or the first label that is declared again;
* `LabelTable.resolve?` — `resolve`, the line at which a label is declared.
-/

namespace TurtleAlloc

/-- The labels of a stream with the lines that declare them, in the order of declaration. -/
structure LabelTable where
  entries : List (String × Nat)
  deriving DecidableEq, Repr

/-- A label that is declared a second time. -/
structure DuplicateLabel where
  name : String
  deriving DecidableEq, Repr

namespace LabelTable

/-- The line that declares a label. -/
def resolve? (table : LabelTable) (name : String) : Option Nat :=
  table.entries.lookup name

/-- The number of labels. -/
def size (table : LabelTable) : Nat :=
  table.entries.length

/-- Enter a declaration, unless its label is known already. -/
def declare (table : LabelTable) (name : String) (index : Nat) :
    Except DuplicateLabel LabelTable :=
  match table.resolve? name with
  | some _ => .error ⟨name⟩
  | none => .ok ⟨table.entries ++ [(name, index)]⟩

/-- Enter the declarations of a stream whose first line has the given position. -/
def declareAll (table : LabelTable) (index : Nat) : Code → Except DuplicateLabel LabelTable
  | [] => .ok table
  | .label name :: rest => do
    let table ← table.declare name index
    table.declareAll (index + 1) rest
  | .instr _ _ :: rest => table.declareAll (index + 1) rest

/-- The label table of a stream. -/
def ofCode (code : Code) : Except DuplicateLabel LabelTable :=
  declareAll ⟨[]⟩ 0 code

end LabelTable

end TurtleAlloc
