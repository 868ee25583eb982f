import TurtleAlloc.Json.Token

/-!
# Writing JSON

* `tokens` — the tokens of a value;
* `compact` — the text without blanks;
* `pretty` — the text with one item or member to a line, indented by two blanks for each container
  around it; empty containers stay on one line.
-/

namespace TurtleAlloc.Json

mutual

/-- The tokens of a value. -/
def tokens : Json → List Token
  | null => [.null]
  | bool value => [.bool value]
  | num numeral => [.num numeral]
  | str quoted => [.str quoted]
  | arr [] => [.beginArray, .endArray]
  | arr (item :: items) => .beginArray :: tokens item ++ itemsTokens items ++ [.endArray]
  | obj [] => [.beginObject, .endObject]
  | obj ((name, value) :: members) =>
    .beginObject :: .str name :: .colon :: tokens value ++ membersTokens members ++ [.endObject]

/-- The tokens of the items behind the first one. -/
def itemsTokens : List Json → List Token
  | [] => []
  | item :: items => .comma :: tokens item ++ itemsTokens items

/-- The tokens of the members behind the first one. -/
def membersTokens : List (List Char × Json) → List Token
  | [] => []
  | (name, value) :: members =>
    .comma :: .str name :: .colon :: tokens value ++ membersTokens members

end

/-- The text of a value without blanks. -/
def compact (json : Json) : String :=
  String.ofList (json.tokens.flatMap Token.text)

/-- The end of a line, and the blanks in front of the next one. -/
def newline (depth : Nat) : List Char :=
  '\n' :: List.replicate (2 * depth) ' '

mutual

/-- The text of a value at some depth, with line breaks. -/
def prettyChars (depth : Nat) : Json → List Char
  | null => Token.null.text
  | bool value => (Token.bool value).text
  | num numeral => (Token.num numeral).text
  | str quoted => (Token.str quoted).text
  | arr [] => ['[', ']']
  | arr (item :: items) =>
    '[' :: newline (depth + 1) ++ prettyChars (depth + 1) item ++
      prettyItems (depth + 1) items ++ newline depth ++ [']']
  | obj [] => ['\x7b', '\x7d']
  | obj ((name, value) :: members) =>
    '\x7b' :: newline (depth + 1) ++ (Token.str name).text ++ [':', ' '] ++
      prettyChars (depth + 1) value ++ prettyMembers (depth + 1) members ++ newline depth ++
      ['\x7d']

/-- The text of the items behind the first one. -/
def prettyItems (depth : Nat) : List Json → List Char
  | [] => []
  | item :: items => ',' :: newline depth ++ prettyChars depth item ++ prettyItems depth items

/-- The text of the members behind the first one. -/
def prettyMembers (depth : Nat) : List (List Char × Json) → List Char
  | [] => []
  | (name, value) :: members =>
    ',' :: newline depth ++ (Token.str name).text ++ [':', ' '] ++ prettyChars depth value ++
      prettyMembers depth members

end

/-- The text of a value with line breaks. -/
def pretty (json : Json) : String :=
  String.ofList (json.prettyChars 0)

end TurtleAlloc.Json
