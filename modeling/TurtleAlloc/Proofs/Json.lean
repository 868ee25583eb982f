import Mathlib
import TurtleAlloc.Json.Printer
import TurtleAlloc.Json.Reader

/-!
# Reading JSON that was written

* `Lexer.complete` — the tokens found once the rest of a text is read.  A number or a word shows its
  end by what follows it, so its equations ask for a rest that is `Delimited`.
* `Spells` — a text that is read as some tokens, whatever has been read before it.
* `WellWritten` — values built of texts and whole numbers; both layouts spell their tokens
  (`WellWritten.spells_compact`, `WellWritten.spells_pretty`).
* `Reader.run_tokens` — every value is read back from its tokens.
* `WellWritten.parse?_compact`, `WellWritten.parse?_pretty` — a value is read back from its text.
-/

namespace TurtleAlloc.Json

/-! ## Where a token ends -/

/-- The characters that may follow a value. -/
def delimiters : List Char := [' ', '\t', '\n', '\r', ',', ']', '\x7d']

/-- A text in front of which every token ends. -/
def Delimited (chars : List Char) : Prop := ∀ c ∈ chars.head?, c ∈ delimiters

variable {c : Char} {chars written gap rest : List Char} {found spelled : List Token} {json : Json}

theorem delimited_nil : Delimited [] := fun _ h => nomatch h

theorem delimited_cons (h : c ∈ delimiters) : Delimited (c :: rest) := by
  rintro _ ⟨⟩
  exact h

theorem mem_delimiters_of_isBlank (h : isBlank c = true) : c ∈ delimiters := by
  simp only [isBlank, Bool.or_eq_true, beq_iff_eq] at h
  rcases h with ((rfl | rfl) | rfl) | rfl <;> decide

/-- Only blanks. -/
def Blanks (gap : List Char) : Prop := ∀ c ∈ gap, isBlank c = true

theorem Blanks.delimited_append (hgap : Blanks gap) (hrest : Delimited rest) :
    Delimited (gap ++ rest) := by
  cases gap with
  | nil => exact hrest
  | cons c gap => exact delimited_cons (mem_delimiters_of_isBlank (hgap c List.mem_cons_self))

/-- A number that may end does not go on with a delimiter. -/
theorem NumeralPart.next?_of_mem_delimiters (part : NumeralPart) (hpart : part.isComplete = true)
    (hc : c ∈ delimiters) : part.next? c = none := by
  cases part with
  | zero | whole | fraction | exponent => fin_cases hc <;> rfl
  | sign | point | mark | markSign => cases hpart

namespace Lexer

/-- Read the rest of a text. -/
def complete (lexer : Lexer) (chars : List Char) : Option Lexer :=
  (lexer.run chars).bind finish?

theorem complete_cons {lexer next : Lexer} (h : lexer.step c = some next) :
    lexer.complete (c :: rest) = next.complete rest := by
  simp only [complete, run, h]

theorem complete_blanks (hgap : Blanks gap) :
    complete ⟨.between, found⟩ (gap ++ rest) = complete ⟨.between, found⟩ rest := by
  induction gap with
  | nil => rfl
  | cons c gap ih =>
    have hstep : step ⟨.between, found⟩ c = some ⟨.between, found⟩ := by
      simp only [step, begin?, hgap c List.mem_cons_self, if_true]
    rw [List.cons_append, complete_cons hstep]
    exact ih fun c hc => hgap c (List.mem_cons_of_mem _ hc)

/-- A token that would go on is ended by a delimiter. -/
theorem complete_of_finish {lexer : Lexer} {token : Token}
    (hfinish : lexer.finish? = some ⟨.between, token :: found⟩)
    (hstep : ∀ c ∈ delimiters, lexer.step c = lexer.finish?.bind (·.begin? c))
    (hrest : Delimited rest) :
    lexer.complete rest = complete ⟨.between, token :: found⟩ rest := by
  cases rest with
  | nil => exact hfinish
  | cons c rest =>
    have hsame : lexer.step c = step ⟨.between, token :: found⟩ c := by
      rw [hstep c (hrest c rfl), hfinish]
      rfl
    simp only [complete, run, hsame]

/-! ## Words -/

theorem complete_word (letters : List Char) {token : Token}
    (hword : word? letters.reverse = some token) (hrest : Delimited rest) :
    complete ⟨.word letters, found⟩ rest = complete ⟨.between, token :: found⟩ rest := by
  refine complete_of_finish ?_ (fun c hc => ?_) hrest
  · simp only [finish?, hword]
    rfl
  · have halpha : c.isAlpha = false := by fin_cases hc <;> rfl
    simp only [step, halpha]
    rfl

/-! ## Numbers -/

theorem complete_number {part : NumeralPart} (hpart : part.isComplete = true)
    (hrest : Delimited rest) :
    complete ⟨.number part chars, found⟩ rest =
      complete ⟨.between, .num chars.reverse :: found⟩ rest := by
  refine complete_of_finish ?_ (fun c hc => ?_) hrest
  · simp only [finish?, hpart, if_true]
    rfl
  · simp only [step, part.next?_of_mem_delimiters hpart hc]

theorem complete_digits {digits : List Char} (hdigits : ∀ c ∈ digits, c.isDigit = true) :
    complete ⟨.number .whole chars, found⟩ (digits ++ rest) =
      complete ⟨.number .whole (digits.reverse ++ chars), found⟩ rest := by
  induction digits generalizing chars with
  | nil => rfl
  | cons c digits ih =>
    have hstep : step ⟨.number .whole chars, found⟩ c =
        some ⟨.number .whole (c :: chars), found⟩ := by
      simp only [step, NumeralPart.next?, hdigits c List.mem_cons_self, if_true]
    rw [List.cons_append, complete_cons hstep, ih fun c hc => hdigits c (List.mem_cons_of_mem _ hc),
      List.reverse_cons, List.append_assoc]
    rfl

end Lexer

/-- A numeral has no leading zero, except that of zero. -/
theorem Numeral.ofNat_eq_cons (n : Nat) :
    ∃ d < 10, ∃ digits, ofNat n = d.digitChar :: digits ∧ (d = 0 → digits = []) := by
  induction n using Nat.strongRecOn with
  | ind n ih =>
    by_cases hlt : n < 10
    · exact ⟨n, hlt, [], Nat.toDigits_of_lt_base hlt, fun _ => rfl⟩
    · obtain ⟨d, hd, digits, heq, hzero⟩ := ih (n / 10) (by omega)
      refine ⟨d, hd, digits ++ [(n % 10).digitChar], ?_, ?_⟩
      · rw [ofNat, Nat.toDigits_of_base_le (by decide) (by omega), ← ofNat, heq, List.cons_append]
      · rintro rfl
        -- a number of several digits is not the one whose numeral is `0`
        rw [hzero rfl] at heq
        have hread := congrArg toNat? heq
        rw [toNat?_ofNat] at hread
        have hten : n / 10 = 0 := Option.some.inj hread
        omega

namespace Lexer

theorem complete_ofNat (sign : List Char) {lexer : Lexer}
    (hfirst : ∀ d < 10, lexer.step d.digitChar =
      some ⟨.number (if d = 0 then .zero else .whole) (d.digitChar :: sign), found⟩)
    (n : Nat) (hrest : Delimited rest) :
    lexer.complete (Numeral.ofNat n ++ rest) =
      complete ⟨.between, .num (sign.reverse ++ Numeral.ofNat n) :: found⟩ rest := by
  have hdigit : ∀ c ∈ Numeral.ofNat n, c.isDigit = true :=
    fun c hc => Nat.isDigit_of_mem_toDigits (by decide) (by decide) hc
  obtain ⟨d, hd, digits, heq, hzero⟩ := Numeral.ofNat_eq_cons n
  rw [heq] at hdigit ⊢
  rw [List.cons_append, complete_cons (hfirst d hd)]
  by_cases h : d = 0
  · rw [if_pos h, hzero h, List.nil_append, complete_number rfl hrest, List.reverse_cons]
  · rw [if_neg h, complete_digits fun c hc => hdigit c (List.mem_cons_of_mem _ hc),
      complete_number rfl hrest, List.reverse_append, List.reverse_reverse, List.reverse_cons,
      List.append_assoc, List.singleton_append]

theorem complete_ofInt (value : Int) (hrest : Delimited rest) :
    complete ⟨.between, found⟩ (Numeral.ofInt value ++ rest) =
      complete ⟨.between, .num (Numeral.ofInt value) :: found⟩ rest := by
  cases value with
  | ofNat n =>
    refine complete_ofNat [] (fun d hd => ?_) n hrest
    interval_cases d <;> rfl
  | negSucc n =>
    have hsign : step ⟨.between, found⟩ '-' = some ⟨.number .sign ['-'], found⟩ := rfl
    rw [Numeral.ofInt, List.cons_append, complete_cons hsign]
    refine complete_ofNat ['-'] (fun d hd => ?_) (n + 1) hrest
    interval_cases d <;> rfl

/-! ## Strings -/

theorem complete_encodeChar (c : Char) :
    complete ⟨.string chars, found⟩ (Quoted.encodeChar c ++ rest) =
      complete ⟨.string ((Quoted.encodeChar c).reverse ++ chars), found⟩ rest := by
  unfold Quoted.encodeChar
  split
  · next letter hletter =>
    obtain ⟨hne, hread⟩ := Quoted.escaped?_of_mem_shortEscapes _ (Quoted.mem_of_lookup hletter)
    have hstep : step ⟨.escape ('\\' :: chars), found⟩ letter =
        some ⟨.string (letter :: '\\' :: chars), found⟩ := by
      simp only [step, if_neg hne, hread, Option.isSome_some, if_true]
    exact complete_cons hstep
  · next habsent =>
    split
    · next hcontrol =>
      have hread : ∀ value < 16, (Quoted.hexValue? (Quoted.hexDigit value)).isNone = false :=
        fun value hvalue => by rw [Quoted.hexValue?_hexDigit value hvalue, Option.isNone_some]
      have hhigh : ∀ chars, step ⟨.hex 1 chars, found⟩ (Quoted.hexDigit (c.toNat / 16)) =
          some ⟨.hex 0 (Quoted.hexDigit (c.toNat / 16) :: chars), found⟩ := fun chars => by
        simp only [step, hread (c.toNat / 16) (by omega)]
        rfl
      have hlow : ∀ chars, step ⟨.hex 0 chars, found⟩ (Quoted.hexDigit (c.toNat % 16)) =
          some ⟨.string (Quoted.hexDigit (c.toNat % 16) :: chars), found⟩ := fun chars => by
        simp only [step, hread (c.toNat % 16) (by omega)]
        rfl
      exact (complete_cons (hhigh _)).trans (complete_cons (hlow _))
    · next hprinted =>
      have hquote : c ≠ '"' := by
        rintro rfl
        exact absurd habsent (by decide)
      have hbackslash : c ≠ '\\' := by
        rintro rfl
        exact absurd habsent (by decide)
      have hstep : step ⟨.string chars, found⟩ c = some ⟨.string (c :: chars), found⟩ := by
        simp only [step, if_neg hquote, if_neg hbackslash, if_neg hprinted]
      exact complete_cons hstep

theorem complete_encode (value : List Char) :
    complete ⟨.string chars, found⟩ (Quoted.encode value ++ rest) =
      complete ⟨.string ((Quoted.encode value).reverse ++ chars), found⟩ rest := by
  induction value generalizing chars with
  | nil => rfl
  | cons c value ih =>
    rw [Quoted.encode, List.flatMap_cons, ← Quoted.encode, List.append_assoc, complete_encodeChar,
      ih, List.reverse_append, List.append_assoc]

theorem complete_str (value : List Char) :
    complete ⟨.between, found⟩ ((Token.str (Quoted.encode value)).text ++ rest) =
      complete ⟨.between, .str (Quoted.encode value) :: found⟩ rest := by
  have hopen : step ⟨.between, found⟩ '"' = some ⟨.string [], found⟩ := rfl
  have hclose : step ⟨.string (Quoted.encode value).reverse, found⟩ '"' =
      some ⟨.between, .str (Quoted.encode value) :: found⟩ := by
    simp only [step, if_true, emit, List.reverse_reverse]
  rw [Token.text, List.cons_append, List.cons_append, complete_cons hopen, List.append_assoc,
    complete_encode, List.append_nil, List.singleton_append, complete_cons hclose]

end Lexer

/-! ## Texts that spell tokens -/

/-- Some tokens are read off the front of a text, if what follows is delimited. -/
def Spells (written : List Char) (spelled : List Token) : Prop :=
  ∀ (found : List Token) (rest : List Char), Delimited rest →
    Lexer.complete ⟨.between, found⟩ (written ++ rest) =
      Lexer.complete ⟨.between, spelled.reverse ++ found⟩ rest

theorem Spells.tokens?_eq (h : Spells written spelled) (hrest : Blanks rest) :
    tokens? (written ++ rest) = some spelled := by
  have hlast : Lexer.complete {} (written ++ rest) = some ⟨.between, spelled.reverse⟩ := by
    have hend : Delimited rest := by simpa using hrest.delimited_append delimited_nil
    rw [h [] rest hend, List.append_nil, ← List.append_nil rest, Lexer.complete_blanks hrest]
    rfl
  rw [Lexer.complete, Option.bind_eq_some_iff] at hlast
  obtain ⟨lexer, hrun, hfinish⟩ := hlast
  simp only [tokens?, hrun, hfinish, Option.bind_eq_bind, Option.bind_some, List.reverse_reverse]
  rfl

theorem spells_ofInt (value : Int) : Spells (Numeral.ofInt value) [.num (Numeral.ofInt value)] :=
  fun _ _ hrest => Lexer.complete_ofInt value hrest

theorem spells_str (value : List Char) :
    Spells (Token.str (Quoted.encode value)).text [.str (Quoted.encode value)] :=
  fun _ _ _ => Lexer.complete_str value

/-- The member of an object: its name, a colon, and its value. -/
theorem Spells.member (hgap : Blanks gap) (h : Spells written spelled) (name : List Char) :
    Spells ((Token.str (Quoted.encode name)).text ++ ':' :: (gap ++ written))
      (.str (Quoted.encode name) :: .colon :: spelled) := by
  intro found rest hrest
  have hcolon : ∀ found, Lexer.step ⟨.between, found⟩ ':' = some ⟨.between, .colon :: found⟩ :=
    fun _ => rfl
  rw [List.append_assoc, Lexer.complete_str, List.cons_append, Lexer.complete_cons (hcolon _),
    List.append_assoc, Lexer.complete_blanks hgap, h _ rest hrest]
  simp

section Entries

/-! Items of an array and members of an object are entries: each has a text and its tokens. -/

variable {ι : Type} {entryText : ι → List Char} {entryTokens : ι → List Token} {entries : List ι}

theorem delimited_entries (hrest : Delimited rest) :
    Delimited (entries.flatMap (fun entry => ',' :: (gap ++ entryText entry)) ++ rest) := by
  cases entries with
  | nil => exact hrest
  | cons entry later => exact delimited_cons (by decide)

theorem spells_entries (hgap : Blanks gap)
    (h : ∀ entry ∈ entries, Spells (entryText entry) (entryTokens entry)) :
    Spells (entries.flatMap fun entry => ',' :: (gap ++ entryText entry))
      (entries.flatMap fun entry => .comma :: entryTokens entry) := by
  intro found rest hrest
  induction entries generalizing found with
  | nil => rfl
  | cons entry later ih =>
    have hcomma : Lexer.step ⟨.between, found⟩ ',' = some ⟨.between, .comma :: found⟩ := rfl
    rw [List.flatMap_cons, List.append_assoc, List.cons_append, Lexer.complete_cons hcomma,
      List.append_assoc, Lexer.complete_blanks hgap,
      h entry List.mem_cons_self _ _ (delimited_entries hrest),
      ih fun entry hentry => h entry (List.mem_cons_of_mem _ hentry)]
    simp

theorem spells_bracketed {first : ι} {outer : List Char} {left right : Char}
    {opening closing : Token}
    (hopen : ∀ found, Lexer.step ⟨.between, found⟩ left = some ⟨.between, opening :: found⟩)
    (hclose : ∀ found, Lexer.step ⟨.between, found⟩ right = some ⟨.between, closing :: found⟩)
    (hright : right ∈ delimiters) (hgap : Blanks gap) (houter : Blanks outer)
    (h : ∀ entry ∈ first :: entries, Spells (entryText entry) (entryTokens entry)) :
    Spells (left :: (gap ++ (entryText first ++
        (entries.flatMap (fun entry => ',' :: (gap ++ entryText entry)) ++ (outer ++ [right])))))
      (opening :: (entryTokens first ++
        (entries.flatMap (fun entry => .comma :: entryTokens entry) ++ [closing]))) := by
  intro found rest hrest
  have hend : Delimited (outer ++ right :: rest) := houter.delimited_append (delimited_cons hright)
  simp only [List.cons_append, List.append_assoc, List.nil_append]
  rw [Lexer.complete_cons (hopen found), Lexer.complete_blanks hgap,
    h first List.mem_cons_self _ _ (delimited_entries hend),
    spells_entries hgap (fun entry hentry => h entry (List.mem_cons_of_mem _ hentry)) _ _ hend,
    Lexer.complete_blanks houter, Lexer.complete_cons (hclose _)]
  simp

end Entries

/-! ## Values -/

/-- Values built of texts and whole numbers. -/
inductive WellWritten : Json → Prop
  | null : WellWritten .null
  | bool (value : Bool) : WellWritten (.bool value)
  | int (value : Int) : WellWritten (.int value)
  | text (value : String) : WellWritten (.text value)
  | arr {items : List Json} (h : ∀ item ∈ items, WellWritten item) : WellWritten (.arr items)
  | object {members : List (String × Json)} (h : ∀ member ∈ members, WellWritten member.2) :
      WellWritten (.object members)

theorem WellWritten.nat (value : Nat) : WellWritten (.nat value) := .int value

theorem itemsTokens_eq (items : List Json) :
    itemsTokens items = items.flatMap fun item => .comma :: item.tokens := by
  induction items with
  | nil => rfl
  | cons item items ih => rw [itemsTokens, ih, List.flatMap_cons]

theorem membersTokens_eq (members : List (List Char × Json)) :
    membersTokens members =
      members.flatMap fun member => .comma :: .str member.1 :: .colon :: member.2.tokens := by
  induction members with
  | nil => rfl
  | cons member members ih =>
    rw [membersTokens, ih, List.flatMap_cons]

theorem prettyItems_eq (depth : Nat) (items : List Json) :
    prettyItems depth items =
      items.flatMap fun item => ',' :: (newline depth ++ item.prettyChars depth) := by
  induction items with
  | nil => rfl
  | cons item items ih => rw [prettyItems, ih, List.flatMap_cons, List.cons_append]

theorem prettyMembers_eq (depth : Nat) (members : List (List Char × Json)) :
    prettyMembers depth members = members.flatMap fun member => ',' :: (newline depth ++
      ((Token.str member.1).text ++ ':' :: ([' '] ++ member.2.prettyChars depth))) := by
  induction members with
  | nil => rfl
  | cons member members ih => simp [prettyMembers, ih]

theorem blanks_newline (depth : Nat) : Blanks (newline depth) := by
  intro c hc
  rcases List.mem_cons.mp hc with rfl | hc
  · rfl
  · rw [List.eq_of_mem_replicate hc]
    rfl

theorem blanks_nil : Blanks [] := fun _ h => nomatch h

theorem spells_word (token : Token) (h : token ∈ [Token.null, .bool true, .bool false]) :
    Spells token.text [token] := by
  intro found rest hrest
  fin_cases h
  · exact Lexer.complete_word ['l', 'l', 'u', 'n'] rfl hrest
  · exact Lexer.complete_word ['e', 'u', 'r', 't'] rfl hrest
  · exact Lexer.complete_word ['e', 's', 'l', 'a', 'f'] rfl hrest

section Containers

variable {outer : List Char} (layout : Json → List Char)

/-- An array whose items are laid out in some way, with blanks around them. -/
theorem spells_arr {first : Json} {items : List Json} (hgap : Blanks gap) (houter : Blanks outer)
    (h : ∀ item ∈ first :: items, Spells (layout item) item.tokens) :
    Spells ('[' :: (gap ++ (layout first ++
        (items.flatMap (fun item => ',' :: (gap ++ layout item)) ++ (outer ++ [']'])))))
      (tokens (.arr (first :: items))) := by
  simp only [tokens, itemsTokens_eq, List.cons_append, List.append_assoc]
  exact spells_bracketed (fun _ => rfl) (fun _ => rfl) (by decide) hgap houter h

/-- A member whose value is laid out in some way, with blanks in front of it. -/
def memberText (space : List Char) (layout : Json → List Char) (member : List Char × Json) :
    List Char :=
  (Token.str member.1).text ++ ':' :: (space ++ layout member.2)

/-- An object whose values are laid out in some way, with blanks around its members. -/
theorem spells_object {first : String × Json} {members : List (String × Json)} {space : List Char}
    (hgap : Blanks gap) (houter : Blanks outer) (hspace : Blanks space)
    (h : ∀ member ∈ first :: members, Spells (layout member.2) member.2.tokens) :
    Spells ('\x7b' :: (gap ++ (memberText space layout (Quoted.encode first.1.toList, first.2) ++
        ((members.map fun (name, value) => (Quoted.encode name.toList, value)).flatMap
          (fun member => ',' :: (gap ++ memberText space layout member)) ++ (outer ++ ['\x7d'])))))
      (tokens (.object (first :: members))) := by
  have hopen : ∀ found, Lexer.step ⟨.between, found⟩ '\x7b' =
      some ⟨.between, .beginObject :: found⟩ := fun _ => rfl
  have hclose : ∀ found, Lexer.step ⟨.between, found⟩ '\x7d' =
      some ⟨.between, .endObject :: found⟩ := fun _ => rfl
  have hentries : ∀ member ∈ first :: members,
      Spells (memberText space layout (Quoted.encode member.1.toList, member.2))
        (.str (Quoted.encode member.1.toList) :: .colon :: member.2.tokens) :=
    fun member hmember => (h member hmember).member hspace member.1.toList
  have hspells := spells_bracketed hopen hclose (by decide) hgap houter hentries
  simpa only [object, List.map_cons, tokens, membersTokens_eq, List.flatMap_map, List.cons_append,
    List.append_assoc] using hspells

end Containers

namespace WellWritten

/-- **The text without blanks** spells the tokens of a value. -/
theorem spells_compact (h : json.WellWritten) :
    Spells (json.tokens.flatMap Token.text) json.tokens := by
  induction h with
  | null => exact spells_word .null (by decide)
  | bool value => simpa [tokens] using spells_word (.bool value) (by cases value <;> decide)
  | int value => simpa [Json.int, tokens, Token.text] using spells_ofInt value
  | text value => simpa [Json.text, tokens] using spells_str value.toList
  | @arr items h ih =>
    cases items with
    | nil => exact fun _ _ _ => rfl
    | cons first items =>
      have hspells := spells_arr _ blanks_nil blanks_nil ih
      simpa [tokens, itemsTokens_eq, List.flatMap_assoc, Token.text] using hspells
  | @object members h ih =>
    cases members with
    | nil => exact fun _ _ _ => rfl
    | cons first members =>
      have hspells := spells_object (fun json => json.tokens.flatMap Token.text) blanks_nil
        blanks_nil blanks_nil ih
      simpa [Json.object, tokens, membersTokens_eq, List.flatMap_assoc, memberText, Token.text]
        using hspells

/-- **The text with line breaks** spells the tokens of a value. -/
theorem spells_pretty (h : json.WellWritten) (depth : Nat) :
    Spells (json.prettyChars depth) json.tokens := by
  induction h generalizing depth with
  | null => exact spells_word .null (by decide)
  | bool value => exact spells_word (.bool value) (by cases value <;> decide)
  | int value => exact spells_ofInt value
  | text value => exact spells_str value.toList
  | @arr items h ih =>
    cases items with
    | nil => exact fun _ _ _ => rfl
    | cons first items =>
      have hspells := spells_arr (prettyChars (depth + 1)) (blanks_newline (depth + 1))
        (blanks_newline depth) fun item hitem => ih item hitem (depth + 1)
      simpa [prettyChars, prettyItems_eq] using hspells
  | @object members h ih =>
    cases members with
    | nil => exact fun _ _ _ => rfl
    | cons first members =>
      have hspace : Blanks [' '] := fun c hc => by rw [List.mem_singleton.mp hc]; rfl
      have hspells := spells_object (prettyChars (depth + 1)) (blanks_newline (depth + 1))
        (blanks_newline depth) hspace
        fun member hmember => ih member hmember (depth + 1)
      simpa [Json.object, prettyChars, prettyMembers_eq, memberText] using hspells

end WellWritten

/-! ## The reader -/

namespace Reader

/-- No value begins like the end of an array. -/
theorem run_arrayStart (json : Json) (outer : List Open) (rest : List Token) :
    run (.arrayStart outer) (json.tokens ++ rest) =
      run (.value (.array [] :: outer)) (json.tokens ++ rest) := by
  match json with
  | .null | .bool _ | .num _ | .str _ => rfl
  | .arr [] | .arr (_ :: _) => rfl
  | .obj [] | .obj (_ :: _) => rfl

mutual

/-- **A value is read back from its tokens.** -/
theorem run_tokens (json : Json) (outer : List Open) (rest : List Token) :
    run (.value outer) (json.tokens ++ rest) = run (give json outer) rest := by
  match json with
  | .null | .bool _ | .num _ | .str _ => rfl
  | .arr [] => rfl
  | .obj [] => rfl
  | .arr (item :: items) =>
    have hitems := run_itemsTokens items [item] outer (.endArray :: rest)
    simp only [tokens, List.cons_append, List.append_assoc, List.nil_append]
    calc run (.arrayStart outer) (item.tokens ++ (itemsTokens items ++ .endArray :: rest))
      _ = run (.arrayNext [item] outer) (itemsTokens items ++ .endArray :: rest) := by
        rw [run_arrayStart, run_tokens item]
        rfl
      _ = run (give (.arr (items.reverse ++ [item]).reverse) outer) rest := hitems
      _ = run (give (.arr (item :: items)) outer) rest := by simp
  | .obj ((name, json) :: members) =>
    have hmembers := run_membersTokens members [(name, json)] outer (.endObject :: rest)
    simp only [tokens, List.cons_append, List.append_assoc, List.nil_append]
    calc run (.value (.member [] name :: outer))
          (json.tokens ++ (membersTokens members ++ .endObject :: rest))
      _ = run (.objectNext [(name, json)] outer) (membersTokens members ++ .endObject :: rest) :=
        run_tokens json ..
      _ = run (give (.obj (members.reverse ++ [(name, json)]).reverse) outer) rest := hmembers
      _ = run (give (.obj ((name, json) :: members)) outer) rest := by simp

theorem run_itemsTokens (items found : List Json) (outer : List Open) (rest : List Token) :
    run (.arrayNext found outer) (itemsTokens items ++ rest) =
      run (.arrayNext (items.reverse ++ found) outer) rest := by
  match items with
  | [] => rfl
  | item :: items =>
    simp only [itemsTokens, List.cons_append, List.append_assoc]
    calc run (.value (.array found :: outer)) (item.tokens ++ (itemsTokens items ++ rest))
      _ = run (.arrayNext (item :: found) outer) (itemsTokens items ++ rest) := run_tokens item ..
      _ = run (.arrayNext ((item :: items).reverse ++ found) outer) rest := by
        rw [run_itemsTokens items, List.reverse_cons, List.append_assoc]
        rfl

theorem run_membersTokens (members found : List (List Char × Json)) (outer : List Open)
    (rest : List Token) :
    run (.objectNext found outer) (membersTokens members ++ rest) =
      run (.objectNext (members.reverse ++ found) outer) rest := by
  match members with
  | [] => rfl
  | (name, json) :: members =>
    simp only [membersTokens, List.cons_append, List.append_assoc]
    calc run (.value (.member found name :: outer)) (json.tokens ++ (membersTokens members ++ rest))
      _ = run (.objectNext ((name, json) :: found) outer) (membersTokens members ++ rest) :=
        run_tokens json ..
      _ = run (.objectNext (((name, json) :: members).reverse ++ found) outer) rest := by
        rw [run_membersTokens members, List.reverse_cons, List.append_assoc]
        rfl

end

end Reader

/-! ## Whole texts -/

/-- A value is read from any text that spells its tokens, with blanks behind it. -/
theorem parse?_of_spells (h : Spells written json.tokens) (hrest : Blanks rest) :
    parse? (String.ofList (written ++ rest)) = some json := by
  have hreader : Reader.run (.value []) json.tokens = some (.finished json) := by
    simpa [Reader.run, Reader.give] using Reader.run_tokens json [] []
  simp only [parse?, String.toList_ofList, h.tokens?_eq hrest, hreader, Option.bind_eq_bind,
    Option.bind_some]
  rfl

/-- **A value is read back from its text without blanks.** -/
theorem WellWritten.parse?_compact (h : json.WellWritten) : parse? json.compact = some json := by
  simpa [compact] using parse?_of_spells h.spells_compact blanks_nil

/-- **A value is read back from its text with line breaks**, which may end with one. -/
theorem WellWritten.parse?_pretty (h : json.WellWritten) :
    parse? (json.pretty ++ "\n") = some json := by
  have htext : json.pretty ++ "\n" = String.ofList (json.prettyChars 0 ++ ['\n']) := by
    rw [pretty, String.ofList_append]
  rw [htext]
  exact parse?_of_spells (h.spells_pretty 0) (blanks_newline 0)

end TurtleAlloc.Json
