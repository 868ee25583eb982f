import Mathlib
import TurtleAlloc.LabelTable

/-!
# Label tables of rearranged code

* `LabelTable.relocate` — the table with every line moved elsewhere;
* `LabelTable.declare_relocate` — entering a declaration commutes with it;
* `LabelTable.declareAll_append_of_instr` — lines that declare nothing only take up space.
-/

namespace TurtleAlloc.LabelTable

variable (f : Nat → Nat) (table : LabelTable)

/-- The table with each line that declares a label moved by `f`. -/
def relocate : LabelTable :=
  ⟨table.entries.map fun (name, index) => (name, f index)⟩

theorem resolve?_relocate (name : String) :
    (table.relocate f).resolve? name = (table.resolve? name).map f := by
  obtain ⟨entries⟩ := table
  unfold relocate resolve?
  induction entries with
  | nil => rfl
  | cons entry later ih =>
    rw [List.map_cons, List.lookup_cons, List.lookup_cons]
    cases name == entry.1 with
    | true => rfl
    | false => exact ih

/-- A label is known after the move exactly if it was known before. -/
theorem declare_relocate (name : String) (index : Nat) :
    (table.relocate f).declare name (f index) = (table.declare name index).map (relocate f) := by
  unfold declare
  rw [resolve?_relocate]
  cases table.resolve? name with
  | some line => rfl
  | none => simp [Except.map, relocate]

theorem declareAll_label_cons (name : String) (index : Nat) (rest : Code) :
    table.declareAll index (.label name :: rest) =
      table.declare name index >>= fun table => table.declareAll (index + 1) rest := rfl

/-- Lines that declare no label only take up space. -/
theorem declareAll_append_of_instr {code : Code} (hcode : ∀ line ∈ code, line.isLabel = false)
    (index : Nat) (rest : Code) :
    table.declareAll index (code ++ rest) = table.declareAll (index + code.length) rest := by
  induction code generalizing index with
  | nil => rfl
  | cons line code ih =>
    cases line with
    | label name => cases hcode (.label name) List.mem_cons_self
    | instr opcode operands =>
      have hrest := ih fun line hline => hcode line (List.mem_cons_of_mem _ hline)
      rw [List.cons_append, declareAll, hrest, List.length_cons, Nat.add_assoc, Nat.add_comm 1]

end TurtleAlloc.LabelTable
