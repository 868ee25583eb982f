import Mathlib
import TurtleAlloc.Command.Report
import TurtleAlloc.Proofs.Json

/-!
# Data that is read back from JSON

* `Recovers` — a value whose JSON form is well written and is read as the value again; one lemma for
  each type of data.
* `RoundTrips` — a value that is read back from both texts of its form.
* `json_roundTrip` — all data do, and a command that writes JSON loses nothing.
-/

namespace TurtleAlloc

namespace Json

/-! ## Values -/

theorem unquote_encode (value : String) : unquote (Quoted.encode value.toList) = some value := by
  rw [unquote, Quoted.decode_encode, Option.map_some, String.ofList_toList]

theorem text?_text (value : String) : (text value).text? = some value := unquote_encode value

theorem int32?_int (value : Int32) : (int value.toInt).int32? = some value := by
  have hlower := value.le_toInt
  have hupper := value.toInt_le
  rw [int32?, int, int?, Numeral.toInt?_ofInt, Option.bind_some, if_pos ⟨hlower, hupper⟩,
    Int32.ofInt_toInt]

theorem nat?_nat {value : Nat} (h : value < UInt64.size) : (nat value).nat? = some value := by
  rw [nat, nat?, Numeral.toNat?_ofNat, Option.filter_some, decide_eq_true h, if_pos rfl]

theorem mapM_map_eq_some {α β : Type} {f : α → β} {g : β → Option α} {items : List α}
    (h : ∀ item ∈ items, g (f item) = some item) : (items.map f).mapM g = some items := by
  induction items with
  | nil => rfl
  | cons item items ih =>
    rw [List.map_cons, List.mapM_cons, h item List.mem_cons_self,
      ih fun item hitem => h item (List.mem_cons_of_mem _ hitem)]
    rfl

/-- The members of an object are found under the names that they were given. -/
theorem members?_map (members : List (String × Json)) :
    members? (members.map fun (name, value) => (Quoted.encode name.toList, value)) =
      some members :=
  mapM_map_eq_some fun member _ => by simp only [unquote_encode, Option.map_some]

theorem variant?_object (name : String) (value : Json) :
    (object [(name, value)]).variant? = some (name, value) := by
  simp only [object, List.map_cons, List.map_nil, variant?, unquote_encode, Option.map_some]

/-- The fields of a record are looked up among its members. -/
theorem record?_object {fields : List String} {closed : Bool} {members : List (String × Json)}
    (h : closed = true → ∀ member ∈ members, member.1 ∈ fields) :
    record? fields closed (object members) = fields.mapM (field? members) := by
  have hopen : (closed && members.any fun member => !fields.contains member.1) = false := by
    cases closed with
    | false => rfl
    | true => simpa using h rfl
  rw [object, record?, members?_map, Option.bind_eq_bind, Option.bind_some, hopen]
  rfl

/-- A field that is left out if it is open. -/
theorem nullable_map {α : Type} {toJson : α → Json} {ofJson? : Json → Option α}
    {value : Option α} (hnull : ∀ a, toJson a ≠ null)
    (h : ∀ a ∈ value, ofJson? (toJson a) = some a) :
    nullable ofJson? (value.map toJson) = some value := by
  cases value with
  | none => rfl
  | some a =>
    rw [Option.map_some, nullable, h a rfl, Option.map_some]
    exact hnull a

end Json

open Json

/-! ## Values of each type -/

variable {α : Type}

/-- The JSON form of a value is well written and read as the value again. -/
structure Recovers (toJson : α → Json) (ofJson? : Json → Option α) (value : α) : Prop where
  written : (toJson value).WellWritten
  read : ofJson? (toJson value) = some value

theorem Recovers.list {toJson : α → Json} {ofJson? : Json → Option α} {items : List α}
    (h : ∀ item ∈ items, Recovers toJson ofJson? item) :
    Recovers (fun items => .arr (items.map toJson)) (list? ofJson?) items where
  written := .arr fun json hjson => by
    obtain ⟨item, hitem, rfl⟩ := List.mem_map.mp hjson
    exact (h item hitem).written
  read := mapM_map_eq_some fun item hitem => (h item hitem).read

theorem Opcode.recovers (opcode : Opcode) : Recovers Opcode.toJson Opcode.ofJson? opcode where
  written := .text _
  read := by
    rw [toJson, text, ofJson?, unquote_encode, Option.bind_some, ofMnemonic?_mnemonic]

theorem Operand.recovers (operand : Operand) : Recovers Operand.toJson Operand.ofJson? operand where
  written := by
    cases operand with
    | register name => exact .object (by simpa using .text name)
    | label name => exact .object (by simpa using .text name)
    | number value => exact .object (by simpa using .int value.toInt)
  read := by
    cases operand with
    | register name => simp [toJson, ofJson?, variant?_object, text?_text]
    | label name => simp [toJson, ofJson?, variant?_object, text?_text]
    | number value => simp [toJson, ofJson?, variant?_object, int32?_int]

theorem Line.recovers (line : Line) : Recovers Line.toJson Line.ofJson? line := by
  cases line with
  | label name =>
    exact ⟨.object (by simpa using .text name), by
      simp [Line.toJson, Line.ofJson?, variant?_object, text?_text]⟩
  | instr opcode operands =>
    have hoperands := Recovers.list fun operand (_ : operand ∈ operands) => operand.recovers
    refine ⟨.object ?_, ?_⟩
    · simpa using .object (by simpa using ⟨opcode.recovers.written, hoperands.written⟩)
    · simp [Line.toJson, Line.ofJson?, Line.instrOfJson?, variant?_object, record?_object, field?,
        Json.optional, opcode.recovers.read, hoperands.read]

theorem Code.recovers (code : Code) : Recovers Code.toJson Code.ofJson? code :=
  .list fun line _ => line.recovers

theorem Subroutine.recovers (subroutine : Subroutine) :
    Recovers Subroutine.toJson Subroutine.ofJson? subroutine where
  written := .object (by simpa using ⟨.text subroutine.name, subroutine.code.recovers.written⟩)
  read := by
    simp [toJson, ofJson?, record?_object, field?, Json.optional, text?_text,
      subroutine.code.recovers.read]

theorem Program.recovers (program : Program) :
    Recovers Program.toJson Program.ofJson? program := by
  have hsubroutines := Recovers.list fun subroutine (_ : subroutine ∈ program.subroutines) =>
    subroutine.recovers
  refine ⟨.object ?_, ?_⟩
  · simpa using ⟨program.topLevel.recovers.written, hsubroutines.written⟩
  · simp [toJson, ofJson?, record?_object, field?, Json.optional, program.topLevel.recovers.read,
      hsubroutines.read]

/-- All numbers of an interval have 64 bits. -/
def Interval.Fits (interval : Interval) : Prop :=
  interval.start < UInt64.size ∧ interval.stop < UInt64.size ∧
    ∀ slot ∈ interval.slot, slot < UInt64.size

theorem Interval.rangeOfJson?_rangeToJson {start stop : Nat} (hstart : start < UInt64.size)
    (hstop : stop < UInt64.size) : rangeOfJson? (rangeToJson start stop) = some (start, stop) := by
  simp [rangeToJson, rangeOfJson?, record?_object, field?, nat?_nat hstart, nat?_nat hstop]

/-- Places that are not decided leave their fields open. -/
theorem Interval.record?_toJson (interval : Interval) :
    record? ["register", "range", "physical", "spill_slot"] false interval.toJson =
      some [some (.text interval.register), some (rangeToJson interval.start interval.stop),
        interval.physical.map .text, interval.slot.map .nat] := by
  rw [toJson, record?_object (by simp)]
  cases interval.physical <;> cases interval.slot <;> simp [field?]

theorem Interval.recovers {interval : Interval} (h : interval.Fits) :
    Recovers Interval.toJson Interval.ofJson? interval := by
  obtain ⟨hstart, hstop, hslot⟩ := h
  constructor
  case written =>
    have hrange : (rangeToJson interval.start interval.stop).WellWritten :=
      .object (by simpa using ⟨.nat interval.start, .nat interval.stop⟩)
    refine .object ?_
    cases interval.physical <;> cases interval.slot <;>
      simp [hrange, WellWritten.text, WellWritten.nat]
  case read =>
    have hphysical : nullable text? (interval.physical.map .text) = some interval.physical :=
      nullable_map (fun _ => nofun) fun name _ => text?_text name
    have hplace : nullable nat? (interval.slot.map .nat) = some interval.slot :=
      nullable_map (fun _ => nofun) fun slot hmem => nat?_nat (hslot slot hmem)
    simp [ofJson?, record?_toJson, text?_text, rangeOfJson?_rangeToJson hstart hstop, hphysical,
      hplace]

theorem Block.recovers {block : Block} (h : block.start < UInt64.size) :
    Recovers Block.toJson Block.ofJson? block where
  written := .object (by simpa using ⟨.nat block.start, block.code.recovers.written⟩)
  read := by
    simp [toJson, ofJson?, record?_object, field?, nat?_nat h, block.code.recovers.read]

/-! ## Texts -/

/-- A value is read back from its text, without blanks or with line breaks. -/
def RoundTrips (toJson : α → Json) (ofJson? : Json → Option α) (value : α) : Prop :=
  (parse? (toJson value).compact).bind ofJson? = some value ∧
    (parse? ((toJson value).pretty ++ "\n")).bind ofJson? = some value

theorem Recovers.roundTrips {toJson : α → Json} {ofJson? : Json → Option α} {value : α}
    (h : Recovers toJson ofJson? value) : RoundTrips toJson ofJson? value := by
  constructor
  · rw [h.written.parse?_compact, Option.bind_some, h.read]
  · rw [h.written.parse?_pretty, Option.bind_some, h.read]

/-- What a command has to say, printed or written to a file. -/
def Report.text (report : Report) : String :=
  match report.written with
  | some (_, content) => content
  | none => report.stdout

/-- An allocation fails for a reason that has nothing to do with the layout, or it shows the same
program in both layouts. -/
theorem AllocateCommand.run_cases (command : AllocateCommand) (contents : String → Option String) :
    (∃ failure, ∀ json, { command with json }.run contents = .error failure) ∨
      ∃ compiled : Program, ∀ json, ∃ report, { command with json }.run contents = .ok report ∧
        report.text = if json then compiled.toJson.pretty ++ "\n" else compiled.listing := by
  have hoptions : ∀ json, { command with json }.options contents = command.options contents :=
    fun _ => rfl
  cases hprogram : decodeFile contents Program.ofJson? command.input with
  | error failure =>
    exact .inl ⟨failure, fun json => by simp only [run, hprogram, bind, Except.bind]⟩
  | ok program =>
    cases hread : command.options contents with
    | error failure =>
      exact .inl ⟨failure, fun json => by
        simp only [run, hprogram, hoptions, hread, bind, Except.bind]⟩
    | ok options =>
      cases hcompile : (program.compile options).result with
      | error cause =>
        exact .inl ⟨.uncompilable cause, fun json => by
          simp only [run, hprogram, hoptions, hread, hcompile, bind, Except.bind]⟩
      | ok compiled =>
        refine .inr ⟨compiled, fun json => ?_⟩
        simp only [run, hprogram, hoptions, hread, hcompile, bind, Except.bind]
        cases command.output with
        | none => exact ⟨_, rfl, rfl⟩
        | some file => exact ⟨_, rfl, rfl⟩

/-- **Data survive being written.**  Programs, subroutines, code, lines, operands and opcodes are
read back from both texts of their JSON forms, whatever names and numbers they have; so are
intervals and blocks, if their positions and slots have 64 bits.  An allocation that writes JSON
therefore writes the program whose listing it writes otherwise. -/
theorem json_roundTrip :
    (∀ program, RoundTrips Program.toJson Program.ofJson? program) ∧
    (∀ subroutine, RoundTrips Subroutine.toJson Subroutine.ofJson? subroutine) ∧
    (∀ code, RoundTrips Code.toJson Code.ofJson? code) ∧
    (∀ line, RoundTrips Line.toJson Line.ofJson? line) ∧
    (∀ operand, RoundTrips Operand.toJson Operand.ofJson? operand) ∧
    (∀ opcode, RoundTrips Opcode.toJson Opcode.ofJson? opcode) ∧
    (∀ interval : Interval, interval.Fits →
      RoundTrips Interval.toJson Interval.ofJson? interval) ∧
    (∀ block : Block, block.start < UInt64.size → RoundTrips Block.toJson Block.ofJson? block) ∧
    ∀ (command : AllocateCommand) (contents : String → Option String),
      (∃ failure, { command with json := true }.run contents = .error failure ∧
        { command with json := false }.run contents = .error failure) ∨
      ∃ program json listing, { command with json := true }.run contents = .ok json ∧
        { command with json := false }.run contents = .ok listing ∧
        json.text = program.toJson.pretty ++ "\n" ∧
        (parse? json.text).bind Program.ofJson? = some program ∧
        listing.text = program.listing := by
  refine ⟨fun program => program.recovers.roundTrips,
    fun subroutine => subroutine.recovers.roundTrips, fun code => code.recovers.roundTrips,
    fun line => line.recovers.roundTrips, fun operand => operand.recovers.roundTrips,
    fun opcode => opcode.recovers.roundTrips,
    fun interval h => (Interval.recovers h).roundTrips,
    fun block h => (Block.recovers h).roundTrips, fun command contents => ?_⟩
  rcases command.run_cases contents with ⟨failure, hfailure⟩ | ⟨compiled, hcompiled⟩
  · exact .inl ⟨failure, hfailure true, hfailure false⟩
  · obtain ⟨json, hjson, htext⟩ := hcompiled true
    obtain ⟨listing, hlisting, hplain⟩ := hcompiled false
    refine .inr ⟨compiled, json, listing, hjson, hlisting, htext, ?_, hplain⟩
    rw [htext]
    exact compiled.recovers.roundTrips.2

/-- Names with a quotation mark, a backslash, control characters and characters beyond ASCII, and
the greatest and least numbers of their widths. -/
theorem json_roundTrip_extremes :
    let code : Code := [.label "\"\\\n\x00", .instr .li [.register "é𝄞", .number Int32.minValue]]
    let interval : Interval :=
      ⟨"", UInt64.size - 1, 0, some "\x1f\x7f", some (UInt64.size - 1)⟩
    let block : Block := ⟨UInt64.size - 1, code⟩
    RoundTrips Code.toJson Code.ofJson? code ∧
      (interval.Fits ∧ RoundTrips Interval.toJson Interval.ofJson? interval) ∧
      (block.start < UInt64.size ∧ RoundTrips Block.toJson Block.ofJson? block) := by
  intro code interval block
  have hinterval : interval.Fits := by
    refine ⟨by decide, by decide, ?_⟩
    rintro _ ⟨⟩
    decide
  have hblock : block.start < UInt64.size := by decide
  obtain ⟨_, _, hcode, _, _, _, hintervals, hblocks, _⟩ := json_roundTrip
  exact ⟨hcode code, ⟨hinterval, hintervals interval hinterval⟩, hblock, hblocks block hblock⟩

end TurtleAlloc
