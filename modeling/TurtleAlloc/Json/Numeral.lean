/-!
# Numerals

Numbers as they are written in JSON.  Only whole numbers matter here, and they are written in
decimal digits; a numeral with a fraction or an exponent, even a whole one, and `-0` stand for no
integer.

* `ofInt`, `ofNat` — the numeral of a number;
* `toInt?`, `toNat?` — the number of a numeral.

`toInt?_ofInt` and `toNat?_ofNat` say that numbers are read back from their numerals.
-/

namespace TurtleAlloc.Json.Numeral

/-- The numeral of a natural number. -/
def ofNat (n : Nat) : List Char := Nat.toDigits 10 n

/-- The numeral of an integer. -/
def ofInt : Int → List Char
  | .ofNat n => ofNat n
  | .negSucc n => '-' :: ofNat (n + 1)

/-- The natural number written by some decimal digits. -/
def toNat? (numeral : List Char) : Option Nat :=
  if numeral ≠ [] ∧ numeral.all Char.isDigit then some (Nat.ofDigitChars 10 numeral 0) else none

/-- The integer written by some decimal digits, with a minus sign if it is negative. -/
def toInt? : List Char → Option Int
  | [] => none
  | c :: rest =>
    if c = '-' then
      match toNat? rest with
      | some (n + 1) => some (.negSucc n)
      | _ => none
    else (toNat? (c :: rest)).map Int.ofNat

/-- A natural number is read back from its numeral. -/
theorem toNat?_ofNat (n : Nat) : toNat? (ofNat n) = some n := by
  have digits : (Nat.toDigits 10 n).all Char.isDigit = true :=
    List.all_eq_true.mpr fun c mem => Nat.isDigit_of_mem_toDigits (by decide) (by decide) mem
  simp [toNat?, ofNat, digits, Nat.toDigits_ne_nil, Nat.ofDigitChars_toDigits]

theorem toInt?_ofInt (value : Int) : toInt? (ofInt value) = some value := by
  cases value with
  | ofNat n =>
    have read := toNat?_ofNat n
    cases digits : ofNat n with
    | nil => exact absurd digits Nat.toDigits_ne_nil
    | cons c rest =>
      have mem : c ∈ Nat.toDigits 10 n := by
        rw [ofNat] at digits
        rw [digits]
        exact List.mem_cons_self
      have digit : c.isDigit = true := Nat.isDigit_of_mem_toDigits (by decide) (by decide) mem
      have ne : c ≠ '-' := by
        rintro rfl
        exact absurd digit (by decide)
      rw [ofInt, digits, toInt?, if_neg ne, ← digits, read]
      rfl
  | negSucc n => simp [ofInt, toInt?, toNat?_ofNat]

end TurtleAlloc.Json.Numeral
