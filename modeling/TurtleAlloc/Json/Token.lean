import TurtleAlloc.Json.Basic

/-!
# The tokens of a JSON text

A `Lexer` reads a text one character at a time.  It is strict: it knows the four blanks of JSON,
numbers without leading zeros, and strings without raw control characters and with the escapes of
JSON only.

* `Token`, `Token.text` — the words of JSON and how they are written;
* `Lexer`, `Lexer.step` — what has been read so far, and one character more;
* `tokens?` — the tokens of a whole text.
-/

namespace TurtleAlloc.Json

/-- A word of JSON. -/
inductive Token where
  | beginArray | endArray | beginObject | endObject | comma | colon
  | null
  | bool (value : Bool)
  | num (numeral : List Char)
  | str (quoted : List Char)
  deriving DecidableEq, Repr

/-- How a token is written. -/
def Token.text : Token → List Char
  | beginArray => ['[']
  | endArray => [']']
  | beginObject => ['\x7b']
  | endObject => ['\x7d']
  | comma => [',']
  | colon => [':']
  | null => ['n', 'u', 'l', 'l']
  | bool true => ['t', 'r', 'u', 'e']
  | bool false => ['f', 'a', 'l', 's', 'e']
  | num numeral => numeral
  | str quoted => '"' :: quoted ++ ['"']

/-- The blanks of JSON. -/
def isBlank (c : Char) : Bool :=
  c == ' ' || c == '\t' || c == '\n' || c == '\r'

/-- How far a number has been read. -/
inductive NumeralPart where
  /-- Behind the minus sign. -/
  | sign
  /-- Behind a leading zero. -/
  | zero
  /-- In the whole part. -/
  | whole
  /-- Behind the decimal point. -/
  | point
  /-- In the fraction. -/
  | fraction
  /-- Behind the exponent mark. -/
  | mark
  /-- Behind the sign of the exponent. -/
  | markSign
  /-- In the exponent. -/
  | exponent
  deriving DecidableEq, Repr

namespace NumeralPart

/-- Where a number begins. -/
def start? (c : Char) : Option NumeralPart :=
  if c = '-' then some sign
  else if c = '0' then some zero
  else if c.isDigit then some whole
  else none

/-- How a number goes on; nothing if the character is not part of it. -/
def next? (part : NumeralPart) (c : Char) : Option NumeralPart :=
  match part with
  | sign => if c = '0' then some zero else if c.isDigit then some whole else none
  | zero =>
    if c = '.' then some point else if c = 'e' ∨ c = 'E' then some mark else none
  | whole =>
    if c.isDigit then some whole
    else if c = '.' then some point
    else if c = 'e' ∨ c = 'E' then some mark
    else none
  | point => if c.isDigit then some fraction else none
  | fraction =>
    if c.isDigit then some fraction else if c = 'e' ∨ c = 'E' then some mark else none
  | mark =>
    if c = '+' ∨ c = '-' then some markSign else if c.isDigit then some exponent else none
  | markSign => if c.isDigit then some exponent else none
  | exponent => if c.isDigit then some exponent else none

/-- Whether a number may end here. -/
def isComplete : NumeralPart → Bool
  | zero | whole | fraction | exponent => true
  | sign | point | mark | markSign => false

end NumeralPart

/-- What the character before the next one belongs to.  The characters of an unfinished token are
kept latest first. -/
inductive Mode where
  /-- Between two tokens. -/
  | between
  /-- In `null`, `true` or `false`. -/
  | word (letters : List Char)
  | number (part : NumeralPart) (chars : List Char)
  | string (chars : List Char)
  /-- Behind a backslash in a string. -/
  | escape (chars : List Char)
  /-- In a numeric escape, with some digits to come behind the next one. -/
  | hex (later : Nat) (chars : List Char)
  deriving DecidableEq, Repr

/-- A text that has been read in part. -/
structure Lexer where
  mode : Mode := .between
  /-- The finished tokens, latest first. -/
  tokens : List Token := []
  deriving DecidableEq, Repr

namespace Lexer

/-- Finish a token. -/
def emit (lexer : Lexer) (token : Token) : Lexer :=
  ⟨.between, token :: lexer.tokens⟩

/-- The token with the given letters. -/
def word? (letters : List Char) : Option Token :=
  [Token.null, .bool true, .bool false].find? fun token => token.text == letters

/-- Read a character between two tokens. -/
def begin? (lexer : Lexer) (c : Char) : Option Lexer :=
  if isBlank c then some { lexer with mode := .between }
  else if c = '[' then some (lexer.emit .beginArray)
  else if c = ']' then some (lexer.emit .endArray)
  else if c = '\x7b' then some (lexer.emit .beginObject)
  else if c = '\x7d' then some (lexer.emit .endObject)
  else if c = ',' then some (lexer.emit .comma)
  else if c = ':' then some (lexer.emit .colon)
  else if c = '"' then some { lexer with mode := .string [] }
  else if c.isAlpha then some { lexer with mode := .word [c] }
  else (NumeralPart.start? c).map fun part => { lexer with mode := .number part [c] }

/-- End a token that shows its end only by what follows it. -/
def finish? (lexer : Lexer) : Option Lexer :=
  match lexer.mode with
  | .between => some lexer
  | .word letters => (word? letters.reverse).map lexer.emit
  | .number part chars =>
    if part.isComplete then some (lexer.emit (.num chars.reverse)) else none
  | .string _ | .escape _ | .hex _ _ => none

/-- Read one character. -/
def step (lexer : Lexer) (c : Char) : Option Lexer :=
  match lexer.mode with
  | .between => lexer.begin? c
  | .word letters =>
    if c.isAlpha then some { lexer with mode := .word (c :: letters) }
    else lexer.finish?.bind (·.begin? c)
  | .number part chars =>
    match part.next? c with
    | some part => some { lexer with mode := .number part (c :: chars) }
    | none => lexer.finish?.bind (·.begin? c)
  | .string chars =>
    if c = '"' then some (lexer.emit (.str chars.reverse))
    else if c = '\\' then some { lexer with mode := .escape (c :: chars) }
    else if c.toNat < 0x20 then none
    else some { lexer with mode := .string (c :: chars) }
  | .escape chars =>
    if c = 'u' then some { lexer with mode := .hex 3 (c :: chars) }
    else if (Quoted.escaped? c).isSome then some { lexer with mode := .string (c :: chars) }
    else none
  | .hex later chars =>
    if (Quoted.hexValue? c).isNone then none
    else
      match later with
      | 0 => some { lexer with mode := .string (c :: chars) }
      | later + 1 => some { lexer with mode := .hex later (c :: chars) }

/-- Read some characters. -/
def run (lexer : Lexer) : List Char → Option Lexer
  | [] => some lexer
  | c :: rest =>
    match lexer.step c with
    | some lexer => lexer.run rest
    | none => none

end Lexer

/-- The tokens of a text. -/
def tokens? (chars : List Char) : Option (List Token) := do
  let lexer ← Lexer.run {} chars
  let lexer ← lexer.finish?
  pure lexer.tokens.reverse

end TurtleAlloc.Json
