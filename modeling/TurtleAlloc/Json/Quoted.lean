/-!
# Quoted text

What stands between the quotation marks of a JSON string.  Quotation marks, backslashes and
control characters are written as escapes; all other characters stand for themselves.

* `encode` — the quoted form of a text;
* `decode` — the text of a quoted form, which may use any escape of JSON.

A quoted form may name half of a surrogate pair without the other half.  It is well formed, but
it is the form of no text.  `decode_encode` says that a text is read back from its quoted form.
-/

namespace TurtleAlloc.Json.Quoted

/-- The digit of a value below sixteen, in lower case. -/
def hexDigit (value : Nat) : Char :=
  if value < 10 then Char.ofNat ('0'.toNat + value) else Char.ofNat ('a'.toNat + (value - 10))

/-- The value of a hexadecimal digit of either case. -/
def hexValue? (c : Char) : Option Nat :=
  if '0' ≤ c ∧ c ≤ '9' then some (c.toNat - '0'.toNat)
  else if 'a' ≤ c ∧ c ≤ 'f' then some (c.toNat - 'a'.toNat + 10)
  else if 'A' ≤ c ∧ c ≤ 'F' then some (c.toNat - 'A'.toNat + 10)
  else none

/-- The characters that have an escape of one letter, with that letter. -/
def shortEscapes : List (Char × Char) :=
  [('"', '"'), ('\\', '\\'), ('\x08', 'b'), ('\x0c', 'f'), ('\n', 'n'), ('\r', 'r'), ('\t', 't')]

/-- The character that a letter behind a backslash stands for. -/
def escaped? (letter : Char) : Option Char :=
  if letter = '/' then some '/'
  else (shortEscapes.find? fun entry => entry.2 == letter).map Prod.fst

/-- The quoted form of one character. -/
def encodeChar (c : Char) : List Char :=
  match shortEscapes.lookup c with
  | some letter => ['\\', letter]
  | none =>
    if c.toNat < 0x20 then
      ['\\', 'u', '0', '0', hexDigit (c.toNat / 16), hexDigit (c.toNat % 16)]
    else [c]

/-- The quoted form of a text. -/
def encode (text : List Char) : List Char :=
  text.flatMap encodeChar

/-! ## Reading

A quoted form is first resolved into numbers, each of which is a code point or half of a
surrogate pair; then the halves are put together. -/

mutual

/-- The numbers that a quoted form stands for. -/
def units : List Char → Option (List Nat)
  | [] => some []
  | c :: rest => if c = '\\' then unitsEscape rest else (units rest).map (c.toNat :: ·)

/-- The numbers that a quoted form stands for, behind a backslash. -/
def unitsEscape : List Char → Option (List Nat)
  | [] => none
  | letter :: rest =>
    if letter = 'u' then unitsHex 4 0 rest
    else
      match escaped? letter with
      | some c => (units rest).map (c.toNat :: ·)
      | none => none

/-- The numbers that a quoted form stands for, in a numeric escape with some digits to come. -/
def unitsHex (digits value : Nat) : List Char → Option (List Nat)
  | [] => none
  | c :: rest =>
    match hexValue? c with
    | none => none
    | some digit =>
      if digits = 1 then (units rest).map ((16 * value + digit) :: ·)
      else unitsHex (digits - 1) (16 * value + digit) rest

end

/-- First halves of surrogate pairs. -/
def isHigh (unit : Nat) : Bool := 0xd800 ≤ unit && unit < 0xdc00

/-- Second halves of surrogate pairs. -/
def isLow (unit : Nat) : Bool := 0xdc00 ≤ unit && unit < 0xe000

/-- Put surrogate pairs together; a half that stands alone is no character. -/
def pair : List Nat → Option (List Char)
  | [] => some []
  | [unit] => if isHigh unit || isLow unit then none else some [Char.ofNat unit]
  | unit :: next :: rest =>
    if isHigh unit then
      if isLow next then
        (pair rest).map
          (Char.ofNat (0x10000 + 0x400 * (unit - 0xd800) + (next - 0xdc00)) :: ·)
      else none
    else if isLow unit then none
    else (pair (next :: rest)).map (Char.ofNat unit :: ·)

/-- The text of a quoted form. -/
def decode (quoted : List Char) : Option (List Char) :=
  (units quoted).bind pair

/-! ## Reading what was written -/

theorem hexValue?_hexDigit : ∀ value < 16, hexValue? (hexDigit value) = some value := by
  decide

theorem escaped?_of_mem_shortEscapes :
    ∀ entry ∈ shortEscapes, entry.2 ≠ 'u' ∧ escaped? entry.2 = some entry.1 := by
  decide

/-- A character that is written as a short escape stands in the table with its letter. -/
theorem mem_of_lookup {table : List (Char × Char)} {c letter : Char}
    (h : table.lookup c = some letter) : (c, letter) ∈ table := by
  induction table with
  | nil => cases h
  | cons entry table ih =>
    obtain ⟨c', letter'⟩ := entry
    rw [List.lookup_cons] at h
    split at h
    · next eq =>
      cases h
      rw [eq_of_beq eq]
      exact List.mem_cons_self
    · exact List.mem_cons_of_mem _ (ih h)

/-- Reading passes over one written character. -/
theorem units_encodeChar (c : Char) (rest : List Char) :
    units (encodeChar c ++ rest) = (units rest).map (c.toNat :: ·) := by
  unfold encodeChar
  split
  · next letter found =>
    obtain ⟨ne, read⟩ := escaped?_of_mem_shortEscapes _ (mem_of_lookup found)
    simp only [List.cons_append, List.nil_append, units, if_true, unitsEscape, if_neg ne, read]
  · next absent =>
    split
    · next control =>
      have zero : hexValue? '0' = some 0 := by decide
      have high := hexValue?_hexDigit (c.toNat / 16) (by omega)
      have low := hexValue?_hexDigit (c.toNat % 16) (by omega)
      have value : 16 * (16 * (16 * (16 * 0 + 0) + 0) + c.toNat / 16) + c.toNat % 16 = c.toNat := by
        omega
      simp only [List.cons_append, List.nil_append, units, if_true, unitsEscape, unitsHex, zero,
        high, low, Nat.reduceEqDiff, if_false, Nat.reduceSub, value]
    · have ne : c ≠ '\\' := by
        rintro rfl
        exact absurd absent (by decide)
      simp only [List.cons_append, List.nil_append, units, if_neg ne]

theorem units_encode (text : List Char) : units (encode text) = some (text.map Char.toNat) := by
  induction text with
  | nil => rfl
  | cons c rest ih =>
    rw [encode, List.flatMap_cons, units_encodeChar]
    rw [encode] at ih
    rw [ih]
    rfl

theorem not_surrogate (c : Char) : isHigh c.toNat = false ∧ isLow c.toNat = false := by
  have valid := c.valid
  simp only [UInt32.isValidChar, Nat.isValidChar] at valid
  simp only [isHigh, isLow, Char.toNat, Bool.and_eq_false_iff, decide_eq_false_iff_not]
  omega

/-- Code points are put together to the characters they came from. -/
theorem pair_map_toNat (text : List Char) : pair (text.map Char.toNat) = some text := by
  induction text with
  | nil => rfl
  | cons c rest ih =>
    obtain ⟨high, low⟩ := not_surrogate c
    cases rest with
    | nil => simp [pair, high, low]
    | cons next rest =>
      rw [List.map_cons] at ih
      simp [pair, high, low, ih]

/-- A text is read back from its quoted form. -/
theorem decode_encode (text : List Char) : decode (encode text) = some text := by
  rw [decode, units_encode]
  exact pair_map_toNat text

end TurtleAlloc.Json.Quoted
