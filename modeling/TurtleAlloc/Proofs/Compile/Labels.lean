import Mathlib
import TurtleAlloc.Proofs.Compile.Rounds
import TurtleAlloc.Proofs.LabelTable

/-!
# Labels that are declared twice

* `Code.Redeclares`, `Code.FirstRedeclared` — a line whose label has been declared before, and the
  label of the first such line.
* `LabelTable.Records` — what a table knows of the lines entered so far.
* `LabelTable.declareAll_outcome` — entering a stream either records all of it or stops at the first
  line whose label is known already.
* `Code.compile_eq_duplicateLabel_iff` — compilation reports such a label if it looks at labels, and
  before anything else can fail.
-/

namespace TurtleAlloc

namespace Code

/-- The label that a line declares has been declared before. -/
def Redeclares (code : Code) (index : Nat) : Prop :=
  ∃ name, code[index]? = some (.label name) ∧ ∃ before < index, code[before]? = some (.label name)

/-- The label of the first line that declares a label again. -/
def FirstRedeclared (code : Code) (name : String) : Prop :=
  ∃ index, IsLeast {i | code.Redeclares i} index ∧ code[index]? = some (.label name)

theorem FirstRedeclared.unique {code : Code} {a b : String} (ha : code.FirstRedeclared a)
    (hb : code.FirstRedeclared b) : a = b := by
  obtain ⟨i, hi, ha⟩ := ha
  obtain ⟨j, hj, hb⟩ := hb
  rw [hi.unique hj, hb] at ha
  simpa using ha.symm

end Code

namespace LabelTable

variable {table : LabelTable} {code front rest : Code} {name : String} {opcode : Opcode}
  {operands : List Operand}

/-! ## The lines entered so far -/

/-- The table resolves a label exactly to the line that declares it, and has one entry for each
declaration. -/
structure Records (code : Code) (table : LabelTable) : Prop where
  resolve?_iff : ∀ name index, table.resolve? name = some index ↔ code[index]? = some (.label name)
  size : table.size = code.countP Line.isLabel

/-- In a recorded stream no label has two declarations. -/
theorem Records.index_eq (h : table.Records code) {i j : Nat} (hi : code[i]? = some (.label name))
    (hj : code[j]? = some (.label name)) : i = j := by
  rw [← h.resolve?_iff] at hi hj
  simpa using hi.symm.trans hj

theorem Records.not_redeclares (h : table.Records code) (index : Nat) :
    ¬ code.Redeclares index := by
  rintro ⟨name, hget, before, hlt, hbefore⟩
  exact Nat.ne_of_lt hlt (h.index_eq hbefore hget)

theorem records_nil : Records [] ⟨[]⟩ :=
  ⟨fun name index => by simp [resolve?], rfl⟩

theorem getElem?_concat_label (front : Code) (line : Line) (name : String) (index : Nat) :
    (front ++ [line])[index]? = some (.label name) ↔
      front[index]? = some (.label name) ∨ index = front.length ∧ line = .label name := by
  rcases Nat.lt_trichotomy index front.length with hlt | heq | hlt
  · rw [List.getElem?_append_left hlt]
    have hne : index ≠ front.length := Nat.ne_of_lt hlt
    simp [hne]
  · subst heq
    simp
  · rw [List.getElem?_append_right (Nat.le_of_lt hlt), List.getElem?_singleton]
    have hne : index ≠ front.length := Nat.ne_of_gt hlt
    have hsub : index - front.length ≠ 0 := Nat.sub_ne_zero_of_lt hlt
    simp [hne, hsub, List.getElem?_eq_none (Nat.le_of_lt hlt)]

theorem Records.concat_instr (h : table.Records front) :
    table.Records (front ++ [.instr opcode operands]) := by
  constructor
  · intro name index
    rw [h.resolve?_iff, getElem?_concat_label]
    simp
  · rw [h.size, List.countP_append]
    simp [Line.isLabel]

theorem Records.concat_label (h : table.Records front) (hnew : table.resolve? name = none) :
    Records (front ++ [.label name]) ⟨table.entries ++ [(name, front.length)]⟩ := by
  constructor
  · intro other index
    rw [getElem?_concat_label, ← h.resolve?_iff]
    unfold resolve? at hnew ⊢
    rw [List.lookup_append]
    by_cases heq : other = name
    · subst heq
      simp [hnew, eq_comm]
    · have hne : (other == name) = false := beq_eq_false_iff_ne.mpr heq
      simp [List.lookup_cons, hne, Ne.symm heq]
  · show (table.entries ++ [(name, front.length)]).length = _
    rw [List.length_append, List.countP_append, ← h.size]
    rfl

/-! ## A whole stream -/

/-- What entering a stream comes to. -/
def Outcome (code : Code) : Except DuplicateLabel LabelTable → Prop
  | .ok table => table.Records code
  | .error duplicate => code.FirstRedeclared duplicate.name

/-- A known label stands in the first line that declares a label again. -/
theorem Records.firstRedeclared (h : table.Records front) {index : Nat}
    (hknown : table.resolve? name = some index) (rest : Code) :
    Code.FirstRedeclared (front ++ .label name :: rest) name := by
  have hget : (front ++ .label name :: rest)[front.length]? = some (.label name) := by simp
  rw [h.resolve?_iff] at hknown
  have hlt := (List.getElem?_eq_some_iff.mp hknown).1
  have hfront : ∀ i < front.length, (front ++ .label name :: rest)[i]? = front[i]? :=
    fun i hi => List.getElem?_append_left hi
  refine ⟨front.length, ⟨⟨name, hget, index, hlt, by rw [hfront index hlt, hknown]⟩, ?_⟩, hget⟩
  rintro later ⟨other, hlater, before, hbefore, hearlier⟩
  -- an earlier one would lie within the recorded lines
  by_contra hle
  rw [hfront later (by omega)] at hlater
  rw [hfront before (by omega)] at hearlier
  exact h.not_redeclares later ⟨other, hlater, before, hbefore, hearlier⟩

/-- **Entering a stream records all of it, or stops at the first label that is declared again.** -/
theorem declareAll_outcome (h : table.Records front) (rest : Code) :
    Outcome (front ++ rest) (table.declareAll front.length rest) := by
  induction rest generalizing table front with
  | nil =>
    rw [List.append_nil]
    exact h
  | cons line rest ih =>
    have hnext : ∀ {table : LabelTable}, table.Records (front ++ [line]) →
        Outcome (front ++ line :: rest) (table.declareAll (front.length + 1) rest) := by
      intro table hrecords
      have houtcome := ih hrecords
      rwa [List.append_assoc, List.singleton_append, List.length_append] at houtcome
    cases line with
    | instr opcode operands => exact hnext h.concat_instr
    | label name =>
      rw [declareAll_label_cons]
      cases hresolve : table.resolve? name with
      | some index =>
        have hdeclare : table.declare name front.length = .error ⟨name⟩ := by
          rw [declare, hresolve]
        rw [hdeclare]
        exact h.firstRedeclared hresolve rest
      | none =>
        have hdeclare : table.declare name front.length =
            .ok ⟨table.entries ++ [(name, front.length)]⟩ := by
          rw [declare, hresolve]
        rw [hdeclare]
        exact hnext (h.concat_label hresolve)

theorem ofCode_outcome (code : Code) : Outcome code (ofCode code) :=
  declareAll_outcome records_nil code

theorem records_of_ofCode (h : ofCode code = .ok table) : table.Records code := by
  have houtcome := ofCode_outcome code
  rw [h] at houtcome
  exact houtcome

theorem ofCode_eq_error_iff : ofCode code = .error ⟨name⟩ ↔ code.FirstRedeclared name := by
  have houtcome := ofCode_outcome code
  constructor
  · intro h
    rw [h] at houtcome
    exact houtcome
  · intro h
    cases hcode : ofCode code with
    | ok table =>
      obtain ⟨index, hleast, _⟩ := h
      exact absurd hleast.1 ((records_of_ofCode hcode).not_redeclares index)
    | error duplicate =>
      rw [hcode] at houtcome
      rw [← houtcome.unique h]

theorem exists_ofCode_iff :
    (∃ table, ofCode code = .ok table) ↔ ∀ (name : String) (i j : Nat),
      code[i]? = some (.label name) → code[j]? = some (.label name) → i = j := by
  constructor
  · rintro ⟨table, htable⟩ name i j
    exact (records_of_ofCode htable).index_eq
  · intro hunique
    cases hcode : ofCode code with
    | ok table => exact ⟨table, rfl⟩
    | error duplicate =>
      obtain ⟨_, ⟨⟨name, hget, before, hlt, hbefore⟩, _⟩, _⟩ := ofCode_eq_error_iff.mp hcode
      exact absurd (hunique name _ _ hbefore hget) (Nat.ne_of_lt hlt)

end LabelTable

/-! ## Compilation -/

namespace Code

variable {code : Code} {options : Options} {name : String}

theorem compile_ne_duplicateLabel (hlabels : LabelsAccepted options code) (name : String) :
    (code.compile options).result ≠ .error (.duplicateLabel name) := by
  rw [result_compile hlabels]
  split_ifs
  · simp
  · obtain ⟨last, _, _, _, hresult⟩ := code.compileFrom_outcome (Nat.le_refl options.registers)
    rw [hresult]
    split <;> simp [Except.map]

/-- **Compilation reports a label that is declared again** if it looks at labels, and at no other
time. -/
theorem compile_eq_duplicateLabel_iff :
    (code.compile options).result = .error (.duplicateLabel name) ↔
      options.validateLabels = true ∧ code.FirstRedeclared name := by
  rw [← LabelTable.ofCode_eq_error_iff]
  rcases labels_cases options code with hlabels | ⟨hvalidate, duplicate, hcode⟩
  · refine ⟨fun h => absurd h (compile_ne_duplicateLabel hlabels name), ?_⟩
    rintro ⟨hvalidate, hcode⟩
    obtain ⟨table, htable⟩ := hlabels hvalidate
    cases hcode.symm.trans htable
  · rw [result_compile_of_duplicate hvalidate hcode, hcode]
    constructor
    · intro h
      cases h
      exact ⟨hvalidate, rfl⟩
    · rintro ⟨_, h⟩
      cases h
      rfl

end Code

/-- **Labels that are declared twice.**  A stream has a label table exactly if no label is declared
at two lines.  The table then resolves each label to the line that declares it and has as many
entries as there are declarations.  Otherwise the label that is reported is the one at the first
line whose label has been declared before.  Compilation reports it too, whatever else is wrong with
the stream, unless it is told not to look at labels. -/
theorem labelTable_exact (code : Code) :
    ((∃ table, LabelTable.ofCode code = .ok table) ↔ ∀ (name : String) (i j : Nat),
      code[i]? = some (.label name) → code[j]? = some (.label name) → i = j) ∧
    (∀ table, LabelTable.ofCode code = .ok table →
      (∀ name i, table.resolve? name = some i ↔ code[i]? = some (.label name)) ∧
      table.size = code.countP Line.isLabel) ∧
    (∀ duplicate, LabelTable.ofCode code = .error duplicate ↔
      code.FirstRedeclared duplicate.name) ∧
    ∀ options name, (code.compile options).result = .error (.duplicateLabel name) ↔
      options.validateLabels = true ∧ code.FirstRedeclared name := by
  refine ⟨LabelTable.exists_ofCode_iff, fun table htable => ?_, fun duplicate => ?_,
    fun options name => Code.compile_eq_duplicateLabel_iff⟩
  · have hrecords := LabelTable.records_of_ofCode htable
    exact ⟨hrecords.resolve?_iff, hrecords.size⟩
  · exact LabelTable.ofCode_eq_error_iff

/-- Two labels are declared again, the second of them first.  It is reported although the stream has
neither a frame nor registers to be compiled with; as long as labels are not looked at, none is. -/
theorem labelTable_exact_interleaved :
    let code : Code := [.label "a", .label "b", .instr .add [.register "x", .register "y"],
      .label "b", .label "a"]
    (¬ ∃ table, LabelTable.ofCode code = .ok table) ∧ code.FirstRedeclared "b" ∧
      (code.compile ⟨0, true⟩).result = .error (.duplicateLabel "b") ∧
      ∀ name, (code.compile ⟨0, false⟩).result ≠ .error (.duplicateLabel name) := by
  intro code
  obtain ⟨hok, _, herror, hcompile⟩ := labelTable_exact code
  have hfirst : code.FirstRedeclared "b" := (herror ⟨"b"⟩).mp (by decide)
  refine ⟨fun h => ?_, hfirst, (hcompile ⟨0, true⟩ "b").mpr ⟨rfl, hfirst⟩, ?_⟩
  · exact absurd (hok.mp h "a" 0 4 rfl rfl) (by decide)
  · exact fun name h => Bool.noConfusion ((hcompile ⟨0, false⟩ name).mp h).1

end TurtleAlloc
