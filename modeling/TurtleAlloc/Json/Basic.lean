import TurtleAlloc.Json.Numeral
import TurtleAlloc.Json.Quoted

/-!
# JSON values

`Json` is a JSON text without its blanks.  Numbers and strings are kept as they are written, and
so are the members of an object: their order, and names that occur more than once.  What they
mean is for the reader of the value to say:

* `text`, `text?` — a string, and the text of a string;
* `int`, `int?`, `nat`, `nat?` — a whole number, and the value of a number that is written as one;
* `list?` — the items of an array.
-/

namespace TurtleAlloc

/-- A JSON value. -/
inductive Json where
  | null
  | bool (value : Bool)
  /-- A number, as it is written. -/
  | num (numeral : List Char)
  /-- A string, as it is written between its quotation marks. -/
  | str (quoted : List Char)
  | arr (items : List Json)
  /-- The members in their order, each name as it is written. -/
  | obj (members : List (List Char × Json))
  deriving Repr

namespace Json

/-- The string with a given text. -/
def text (value : String) : Json := str (Quoted.encode value.toList)

/-- The number with a given value. -/
def int (value : Int) : Json := num (Numeral.ofInt value)

/-- The number with a given value. -/
def nat (value : Nat) : Json := num (Numeral.ofNat value)

/-- The object with given members. -/
def object (members : List (String × Json)) : Json :=
  obj (members.map fun (name, value) => (Quoted.encode name.toList, value))

/-- The text of a quoted form. -/
def unquote (quoted : List Char) : Option String :=
  (Quoted.decode quoted).map String.ofList

/-- The text of a string. -/
def text? : Json → Option String
  | str quoted => unquote quoted
  | _ => none

/-- The value of a number that is written as an integer. -/
def int? : Json → Option Int
  | num numeral => Numeral.toInt? numeral
  | _ => none

/-- The value of a number that is written as a natural number and has at most 64 bits. -/
def nat? : Json → Option Nat
  | num numeral => (Numeral.toNat? numeral).filter (· < UInt64.size)
  | _ => none

/-- The value of a number that is written as an integer and has at most 32 bits with its sign. -/
def int32? (json : Json) : Option Int32 :=
  json.int?.bind fun value =>
    if Int32.minValue.toInt ≤ value ∧ value ≤ Int32.maxValue.toInt then some (Int32.ofInt value)
    else none

/-- A truth value. -/
def bool? : Json → Option Bool
  | bool value => some value
  | _ => none

/-- The items of an array, each read by `item?`. -/
def list? {α : Type} (item? : Json → Option α) : Json → Option (List α)
  | arr items => items.mapM item?
  | _ => none

end Json

end TurtleAlloc
