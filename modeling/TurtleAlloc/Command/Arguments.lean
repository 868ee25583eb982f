/-!
# Command-line arguments

* `Command` — what the program can be asked to do;
* `Setting`, `Arguments` — the options of a command, and what is known of its arguments while they
  are read one after the other;
* `Command.parse?` — the command that a list of arguments stands for.

An option is written `--name value` or `--name=value`, or by its letter as `-l value`, `-lvalue`
or `-l=value`.  Each may be given once.  Behind `--` every argument is an input file.
-/

namespace TurtleAlloc

/-- A request to allocate the registers of a program. -/
structure AllocateCommand where
  /-- The file that holds the program. -/
  input : String
  /-- The number of registers, which overrides the configuration. -/
  registers : Option Nat
  /-- The file that holds the options. -/
  config : Option String
  /-- The file to write instead of the standard output. -/
  output : Option String
  /-- Whether to write JSON instead of a listing. -/
  json : Bool
  deriving DecidableEq, Repr

/-- What the program can be asked to do. -/
inductive Command where
  /-- Tell the version. -/
  | version
  /-- Show the basic blocks of a program. -/
  | blocks (input : String)
  /-- Show the live intervals of a program. -/
  | intervals (input : String) (json : Bool)
  /-- Allocate the registers of a program. -/
  | allocate (command : AllocateCommand)
  deriving DecidableEq, Repr

/-- An option of a command. -/
inductive Setting where
  | registers | config | output | json
  deriving DecidableEq, Repr

namespace Setting

/-- The name of an option. -/
def name : Setting → String
  | registers => "registers"
  | config => "config"
  | output => "output"
  | json => "json"

/-- The letter of an option that has one. -/
def letter? : Setting → Option Char
  | registers => some 'r'
  | output => some 'o'
  | config | json => none

/-- Whether a value follows. -/
def takesValue : Setting → Bool
  | registers | config | output => true
  | json => false

end Setting

/-- The number that is written by decimal digits, perhaps with a plus sign, in at most 64 bits. -/
def parseCount? (text : String) : Option Nat :=
  let digits := match text.toList with
    | '+' :: digits => digits
    | digits => digits
  if digits ≠ [] ∧ digits.all Char.isDigit then
    (some (Nat.ofDigitChars 10 digits 0)).filter (· < UInt64.size)
  else none

/-- A file name; an empty one is refused. -/
def parsePath? (text : String) : Option String :=
  if text.isEmpty then none else some text

/-- What is known of the arguments of a command. -/
structure Arguments where
  /-- The option that waits for its value. -/
  pending : Option Setting := none
  /-- Whether `--` has been met. -/
  inputsOnly : Bool := false
  input : Option String := none
  registers : Option Nat := none
  config : Option String := none
  output : Option String := none
  json : Bool := false
  deriving DecidableEq, Repr

namespace Arguments

/-- An argument that is no value: it begins with a hyphen and has more characters. -/
def isOption (argument : String) : Bool :=
  match argument.toList with
  | '-' :: _ :: _ => true
  | _ => false

/-- Take the input file, of which there is one. -/
def setInput (arguments : Arguments) (text : String) : Option Arguments := do
  let path ← parsePath? text
  match arguments.input with
  | some _ => none
  | none => some { arguments with input := some path }

/-- Take the value of an option that was not given before. -/
def setValue (arguments : Arguments) (setting : Setting) (text : String) : Option Arguments :=
  match setting with
  | .registers =>
    match arguments.registers with
    | some _ => none
    | none => (parseCount? text).map fun count => { arguments with registers := some count }
  | .config =>
    match arguments.config with
    | some _ => none
    | none => (parsePath? text).map fun path => { arguments with config := some path }
  | .output =>
    match arguments.output with
    | some _ => none
    | none => (parsePath? text).map fun path => { arguments with output := some path }
  | .json => none

/-- Take an option with the value attached to it, if there is one. -/
def setOption (arguments : Arguments) (setting : Setting) (attached : Option String) :
    Option Arguments :=
  if setting.takesValue then
    match attached with
    | some text => arguments.setValue setting text
    | none => some { arguments with pending := some setting }
  else if attached.isNone && !arguments.json then some { arguments with json := true }
  else none

/-- Take an option that is written by its name, with what follows the first equals sign as its
value. -/
def takeLong (allowed : List Setting) (arguments : Arguments) (chars : List Char) :
    Option Arguments :=
  let name := String.ofList (chars.takeWhile (· != '='))
  let attached := match chars.dropWhile (· != '=') with
    | [] => none
    | _ :: value => some (String.ofList value)
  match allowed.find? fun setting => setting.name == name with
  | some setting => arguments.setOption setting attached
  | none => none

/-- Take an option that is written by its letter, with the rest of the argument as its value. -/
def takeShort (allowed : List Setting) (arguments : Arguments) (letter : Char)
    (rest : List Char) : Option Arguments :=
  let attached := match rest with
    | [] => none
    | '=' :: value => some (String.ofList value)
    | value => some (String.ofList value)
  match allowed.find? fun setting => setting.letter? == some letter with
  | some setting => arguments.setOption setting attached
  | none => none

/-- Read one argument. -/
def step (allowed : List Setting) (arguments : Arguments) (argument : String) :
    Option Arguments :=
  if arguments.inputsOnly then arguments.setInput argument
  else
    match arguments.pending with
    | some setting =>
      if isOption argument then none
      else { arguments with pending := none }.setValue setting argument
    | none =>
      match argument.toList with
      | ['-', '-'] => some { arguments with inputsOnly := true }
      | '-' :: '-' :: chars => arguments.takeLong allowed chars
      | '-' :: letter :: rest => arguments.takeShort allowed letter rest
      | _ => arguments.setInput argument

/-- Read all arguments of a command; no option may be left without its value. -/
def read? (allowed : List Setting) (texts : List String) : Option Arguments := do
  let arguments ← texts.foldlM (step allowed) {}
  match arguments.pending with
  | some _ => none
  | none => some arguments

end Arguments

namespace Command

/-- The command that some arguments stand for. -/
def parse? : List String → Option Command
  | [] => none
  | "--version" :: _ => some version
  | "blocks" :: rest => do
    let arguments ← Arguments.read? [] rest
    pure (blocks (← arguments.input))
  | "intervals" :: rest => do
    let arguments ← Arguments.read? [.json] rest
    pure (intervals (← arguments.input) arguments.json)
  | "allocate" :: rest => do
    let arguments ← Arguments.read? [.registers, .config, .output, .json] rest
    pure (allocate {
      input := ← arguments.input
      registers := arguments.registers
      config := arguments.config
      output := arguments.output
      json := arguments.json })
  | argument :: _ =>
    match argument.toList with
    | '-' :: 'V' :: _ => some version
    | _ => none

end Command

end TurtleAlloc
