import Mathlib
import FieldGrammar.Json.Parser
import FieldGrammar.Json.Printer
import FieldGrammar.Proofs.Numerals
import FieldGrammar.Proofs.Results
import FieldGrammar.Proofs.TextOctets

/-!
# JSON text is read back

A value is read from its compact text in two steps.  The lexer finds in the text the tokens of the
value; how a value is broken into tokens does not depend on the layout of its text.  The parser
walks over these tokens and comes to the value, whatever is open around it.

Not every value has a text that writes it.  What is unreadable is written as `null`, an integer
may have more digits than are read, and the text of a floating-point number may be read as a
neighbour of this number.  A value is `Legible` if it has no such part.

## Main definitions

* `Json.Legible` — every part of the value can be read back from its text
* `Json.tokensOf` — the tokens that write a value
* `Json.Lexes` — the text is read as these tokens

## Main statements

* `Json.Lexes.compact` — compact text is read as the tokens of its value
* `Json.Parser.run_tokensOf` — the tokens of a value are parsed to the value
* `Json.ofPieces?_of_lexes` — a text of the tokens of a value is read as the value
* `Json.ofBytes?_compact` — compact text is read back
-/

namespace FieldGrammar

namespace Json

/-- The text of the number is read back to the number. -/
def ReadsBack (x : Float) : Prop :=
  Numeral.read? (NumberStyle.json.chars x) = some (.real x)

/-- Every part of the value can be read back from its text. -/
inductive Legible : Json → Prop where
  | null : Legible .null
  | bool (b : Bool) : Legible (.bool b)
  | int {n : Int} (hmin : Int64.minValue.toInt ≤ n) (hmax : n < UInt64.size) : Legible (.int n)
  | real {x : Float} (h : ReadsBack x) : Legible (.real x)
  | string (s : String) : Legible (.string s)
  | array {items : List Json} (h : ∀ item ∈ items, Legible item) : Legible (.array items)
  | object {members : List (String × Json)} (h : ∀ entry ∈ members, Legible entry.2) :
    Legible (.object members)

/-! ### The tokens of a value -/

mutual

/-- The tokens that write a value.  They leave out how a text is laid out, so compact and laid-out
text share them. -/
def tokensOf : Json → List Token
  | .array items => .openArray :: itemTokens items ++ [.closeArray]
  | .object members => .openObject :: memberTokens members ++ [.closeObject]
  | .string s => [.text (some s)]
  | value => [.literal value]

/-- The tokens of items with commas between them. -/
def itemTokens : List Json → List Token
  | [] => []
  | [item] => tokensOf item
  | item :: rest => tokensOf item ++ .comma :: itemTokens rest

/-- The tokens of members with commas between them. -/
def memberTokens : List (String × Json) → List Token
  | [] => []
  | [(key, value)] => .text (some key) :: .colon :: tokensOf value
  | (key, value) :: rest =>
    .text (some key) :: .colon :: tokensOf value ++ .comma :: memberTokens rest

end

/-! ### Lexing -/

/-- The text is read as these tokens, whatever has been read before.  So texts can be taken apart
from the left, one token at a time. -/
def Lexes (text : List Char) (tokens : List Token) : Prop :=
  ∀ done, Lexer.tokensFrom .between done (text.map .char) = some (done.reverse ++ tokens)

/-- The text does not go on with a word or a numeral.  A word or a numeral in front of it ends where
the text begins, which the lexer finds out from the next character only. -/
def Delimited (text : List Char) : Prop :=
  ∀ c ∈ text.head?, Lexer.isWordChar c = false ∧ Lexer.isNumeralChar c = false

section

variable {text : List Char} {tokens : List Token}

theorem delimited_nil : Delimited [] := nofun

/-- A character that is part of no word and no numeral ends whatever stands in front of it. -/
theorem delimited_cons {c : Char}
    (h : Lexer.isWordChar c = false ∧ Lexer.isNumeralChar c = false) : Delimited (c :: text) := by
  rintro _ ⟨⟩
  exact h

theorem Lexes.nil : Lexes [] [] := by
  intro done
  rw [List.append_nil]
  rfl

theorem Lexer.begin?_mark {c : Char} {token : Token} (h : mark? c = some token)
    (done : List Token) : begin? c done = some (.between, token :: done) := by
  rw [mark?.eq_def] at h
  split at h
  all_goals cases h
  all_goals rfl

/-- A mark in front of a text is one token in front of the tokens of the text. -/
theorem Lexes.mark {c : Char} {token : Token} (hmark : Lexer.mark? c = some token)
    (h : Lexes text tokens) : Lexes (c :: text) (token :: tokens) := by
  intro done
  have hstep : Lexer.step? .between done (.char c) = some (.between, token :: done) :=
    Lexer.begin?_mark hmark done
  rw [List.map_cons, Lexer.tokensFrom, hstep]
  dsimp only
  rw [h, List.reverse_cons, List.append_assoc]
  rfl

/-! #### Strings -/

theorem Lexer.hexDigit?_hexDigit {n : Nat} (hn : n < 16) : hexDigit? (hexDigit n) = some n := by
  have hall : ∀ n < 16, hexDigit? (hexDigit n) = some n := by decide
  exact hall n hn

/-- A scan that has met nothing but characters. -/
def Lexer.Scan.sofar (chars : List Char) : Lexer.Scan := ⟨chars, true, none⟩

/-- Inside a string, a character takes the lexer from one phase to the next and gives no token. -/
theorem Lexer.tokensFrom_string {phase phase' : Phase} {scan scan' : Scan} {c : Char}
    {done : List Token}
    (h : stepString phase scan c done = some (.string phase' scan', done))
    (rest : List Utf8.Piece) :
    tokensFrom (.string phase scan) done (.char c :: rest) =
      tokensFrom (.string phase' scan') done rest := by
  have hstep : step? (.string phase scan) done (.char c) = some (.string phase' scan', done) := h
  rw [tokensFrom, hstep]

/-- An escape of the numbered form is read as its character.  Four digits are gathered, and the
number is compared with those of surrogates. -/
theorem Lexer.tokensFrom_control {c : Char} (hc : c.toNat < 0x20) (chars : List Char)
    (done : List Token) (rest : List Utf8.Piece) :
    tokensFrom (.string .plain (.sofar chars)) done
        (['\\', 'u', '0', '0', hexDigit (c.toNat / 16), hexDigit (c.toNat % 16)].map .char ++
          rest) =
      tokensFrom (.string .plain (.sofar (c :: chars))) done rest := by
  have hhigh : hexDigit? (hexDigit (c.toNat / 16)) = some (c.toNat / 16) :=
    hexDigit?_hexDigit (by omega)
  have hlow : hexDigit? (hexDigit (c.toNat % 16)) = some (c.toNat % 16) :=
    hexDigit?_hexDigit (by omega)
  -- The number is far from those of surrogates.
  have hunit : (Scan.sofar chars).pushUnit (16 * (c.toNat / 16) + c.toNat % 16) =
      .sofar (c :: chars) := by
    rw [Nat.div_add_mod, Scan.pushUnit, Scan.sofar]
    simp [show ¬ 0xD800 ≤ c.toNat by omega, show ¬ 0xDC00 ≤ c.toNat by omega, Scan.push, Scan.sofar]
  have hfirst : stepString (.hex 2 0) (.sofar chars) (hexDigit (c.toNat / 16)) done =
      some (.string (.hex 3 (c.toNat / 16)) (.sofar chars), done) := by
    rw [stepString, hhigh]
    simp
  have hsecond : stepString (.hex 3 (c.toNat / 16)) (.sofar chars) (hexDigit (c.toNat % 16)) done =
      some (.string .plain (.sofar (c :: chars)), done) := by
    rw [stepString, hlow, Option.map_some, if_pos rfl, hunit]
  show tokensFrom (.string (.hex 2 0) (.sofar chars)) done
    (.char (hexDigit (c.toNat / 16)) :: .char (hexDigit (c.toNat % 16)) :: rest) = _
  rw [tokensFrom_string hfirst, tokensFrom_string hsecond]

/-- What is written for a character of a string is read as this character. -/
theorem Lexer.tokensFrom_escape (c : Char) (chars : List Char) (done : List Token)
    (rest : List Utf8.Piece) :
    tokensFrom (.string .plain (.sofar chars)) done ((escape c).map .char ++ rest) =
      tokensFrom (.string .plain (.sofar (c :: chars))) done rest := by
  rw [escape.eq_def]
  split
  · rfl
  · rfl
  · rfl
  · rfl
  · rfl
  · rfl
  · rfl
  · next hquote hbackslash _ _ _ _ _ =>
    split
    · next hcontrol => exact tokensFrom_control hcontrol chars done rest
    · next hplain =>
      refine tokensFrom_string ?_ rest
      rw [stepString, if_neg (by simpa using hquote), if_neg (by simpa using hbackslash),
        if_neg hplain]
      rfl

/-- The escapes of a string are read as its characters, which gather in front of those that were
read before. -/
theorem Lexer.tokensFrom_escapes (string chars : List Char) (done : List Token)
    (rest : List Utf8.Piece) :
    tokensFrom (.string .plain (.sofar chars)) done
        ((string.flatMap escape).map .char ++ rest) =
      tokensFrom (.string .plain (.sofar (string.reverse ++ chars))) done rest := by
  induction string generalizing chars with
  | nil => rfl
  | cons c string ih =>
      rw [List.flatMap_cons, List.map_append, List.append_assoc, tokensFrom_escape, ih,
        List.reverse_cons, List.append_assoc]
      rfl

/-- A quoted string is read as its token, as every character in it is escaped or stands for itself.
-/
theorem Lexes.quote (s : String) (h : Lexes text tokens) :
    Lexes (quote s ++ text) (.text (some s) :: tokens) := by
  intro done
  have hfinish : (Lexer.Scan.sofar s.toList.reverse).finish = .text (some s) := by
    rw [Lexer.Scan.sofar, Lexer.Scan.finish, List.reverse_reverse, String.ofList_toList]
    rfl
  calc Lexer.tokensFrom .between done ((Json.quote s ++ text).map .char)
      = Lexer.tokensFrom (.string .plain (.sofar [])) done
          ((s.toList.flatMap escape).map .char ++ .char '\x22' :: text.map .char) := by
        rw [Json.quote, List.map_append, List.map_append, List.append_assoc]
        rfl
    _ = Lexer.tokensFrom (.string .plain (.sofar s.toList.reverse)) done
          (.char '\x22' :: text.map .char) := by
        rw [Lexer.tokensFrom_escapes, List.append_nil]
    _ = Lexer.tokensFrom .between ((Lexer.Scan.sofar s.toList.reverse).finish :: done)
          (text.map .char) := rfl
    _ = some (done.reverse ++ .text (some s) :: tokens) := by
        rw [hfinish, h, List.reverse_cons, List.append_assoc]
        rfl

/-! #### Words and numerals -/

/-- A numeral is gathered as long as its characters last. -/
theorem Lexer.tokensFrom_numeral {chars : List Char} (h : Numeral.AllNumeral chars)
    (gathered : List Char) (done : List Token) (rest : List Utf8.Piece) :
    tokensFrom (.numeral gathered) done (chars.map .char ++ rest) =
      tokensFrom (.numeral (chars.reverse ++ gathered)) done rest := by
  induction chars generalizing gathered with
  | nil => rfl
  | cons c chars ih =>
      obtain ⟨hc, hchars⟩ := List.forall_mem_cons.1 h
      have hstep : step? (.numeral gathered) done (.char c) =
          some (.numeral (c :: gathered), done) := if_pos hc
      rw [List.map_cons, List.cons_append, tokensFrom, hstep]
      dsimp only
      rw [ih hchars, List.reverse_cons, List.append_assoc]
      rfl

/-- A token ends where the text does, or where the next character is none of the token. -/
theorem Lexer.tokensFrom_end {mode : Mode} {token : Token} {done : List Token}
    (hnil : tokensFrom mode done [] = tokensFrom .between (token :: done) [])
    (hstep : ∀ c ∈ text.head?, step? mode done (.char c) =
      step? .between (token :: done) (.char c)) :
    tokensFrom mode done (text.map .char) =
      tokensFrom .between (token :: done) (text.map .char) := by
  cases text with
  | nil => exact hnil
  | cons c rest => rw [List.map_cons, tokensFrom, hstep c rfl, tokensFrom]

/-- A numeral ends where the text does not go on with its characters. -/
theorem Lexer.tokensFrom_numeral_end {chars : List Char} {value : Json}
    (hread : Numeral.read? chars.reverse = some value) (hend : Delimited text)
    (done : List Token) :
    tokensFrom (.numeral chars) done (text.map .char) =
      tokensFrom .between (.literal value :: done) (text.map .char) := by
  refine tokensFrom_end ?_ fun c hc => ?_
  · rw [tokensFrom.eq_def]
    dsimp only
    rw [hread]
    rfl
  · show (if isNumeralChar c then _ else do
      begin? c (.literal (← Numeral.read? chars.reverse) :: done)) = _
    rw [(hend c hc).2, hread]
    rfl

/-- A digit or a minus sign begins a numeral. -/
theorem Lexer.begin?_numeral {c : Char} (h : c.isDigit = true ∨ c = '-') (done : List Token) :
    begin? c done = some (.numeral [c], done) := by
  have hother : ∀ d : Char, ¬(d.isDigit = true ∨ d = '-') → (c == d) = false := fun d hd =>
    beq_eq_false_iff_ne.2 fun heq => hd (heq ▸ h)
  have hblank : isBlank c = false := by
    rw [isBlank, hother ' ' (by decide), hother '\n' (by decide), hother '\t' (by decide),
      hother '\r' (by decide)]
    rfl
  have hfirst : (c.isDigit || c == '-') = true := by
    rcases h with h | rfl
    · rw [h, Bool.true_or]
    · rfl
  rw [begin?, hblank, hother '\x22' (by decide), hfirst]
  rfl

/-- What is read as a numeral is read as its token, if the text behind does not go on with it. -/
theorem Lexes.numeral {chars : List Char} {value : Json} (hread : Numeral.read? chars = some value)
    (hend : Delimited text) (h : Lexes text tokens) :
    Lexes (chars ++ text) (.literal value :: tokens) := by
  intro done
  obtain ⟨hall, c, rest, rfl, hfirst⟩ := Numeral.isNumeralText_of_read? hread
  obtain ⟨-, hrest⟩ := List.forall_mem_cons.1 hall
  have hstep : Lexer.step? .between done (.char c) = some (.numeral [c], done) :=
    Lexer.begin?_numeral hfirst done
  have hgathered : Numeral.read? (rest.reverse ++ [c]).reverse = some value := by
    rw [List.reverse_append, List.reverse_reverse]
    exact hread
  rw [List.cons_append, List.map_cons, Lexer.tokensFrom, hstep]
  dsimp only
  rw [List.map_append, Lexer.tokensFrom_numeral hrest,
    Lexer.tokensFrom_numeral_end hgathered hend, h, List.reverse_cons, List.append_assoc]
  rfl

/-- A word ends where the text does not go on with letters. -/
theorem Lexer.tokensFrom_word_end {letters : List Char} {value : Json}
    (hword : word? letters.reverse = some value) (hend : Delimited text) (done : List Token) :
    tokensFrom (.word letters) done (text.map .char) =
      tokensFrom .between (.literal value :: done) (text.map .char) := by
  refine tokensFrom_end ?_ fun c hc => ?_
  · rw [tokensFrom.eq_def]
    dsimp only
    rw [hword]
    rfl
  · show (if isWordChar c then _ else do
      begin? c (.literal (← word? letters.reverse) :: done)) = _
    rw [(hend c hc).1, hword]
    rfl

/-- A word of the language is read as its token. -/
theorem Lexes.word {letters : List Char} {value : Json}
    (hletters : ∀ done rest, Lexer.tokensFrom .between done (letters.map .char ++ rest) =
      Lexer.tokensFrom (.word letters.reverse) done rest)
    (hword : Lexer.word? letters = some value) (hend : Delimited text) (h : Lexes text tokens) :
    Lexes (letters ++ text) (.literal value :: tokens) := by
  intro done
  rw [List.map_append, hletters, Lexer.tokensFrom_word_end _ hend, h, List.reverse_cons,
    List.append_assoc]
  · rfl
  · rw [List.reverse_reverse]
    exact hword

/-! #### Values -/

/-- The text of the items has the tokens of the items, with a comma after each but the last. -/
theorem Lexes.compactItems {items : List Json}
    (hitem : ∀ item ∈ items, ∀ text tokens, Delimited text → Lexes text tokens →
      Lexes (item.compact ++ text) (tokensOf item ++ tokens))
    (hend : Delimited text) (h : Lexes text tokens) :
    Lexes (Json.compactItems items ++ text) (itemTokens items ++ tokens) := by
  induction items with
  | nil => exact h
  | cons item rest ih =>
      obtain ⟨hfirst, hrest⟩ := List.forall_mem_cons.1 hitem
      cases rest with
      | nil => exact hfirst text tokens hend h
      | cons next rest =>
          have hmore := (ih hrest).mark (show Lexer.mark? ',' = some .comma from rfl)
          -- Whatever the item is, the comma behind it ends its last word or numeral.
          have hvalue := hfirst _ _ (delimited_cons ⟨rfl, rfl⟩) hmore
          rw [Json.compactItems, itemTokens, List.append_assoc, List.append_assoc]
          · exact hvalue
          · exact nofun
          · exact nofun

/-- The text of the members has the tokens of the members: a name, a colon and a value. -/
theorem Lexes.compactMembers {members : List (String × Json)}
    (hvalue : ∀ entry ∈ members, ∀ text tokens, Delimited text → Lexes text tokens →
      Lexes (entry.2.compact ++ text) (tokensOf entry.2 ++ tokens))
    (hend : Delimited text) (h : Lexes text tokens) :
    Lexes (Json.compactMembers members ++ text) (memberTokens members ++ tokens) := by
  induction members with
  | nil => exact h
  | cons entry rest ih =>
      obtain ⟨hfirst, hrest⟩ := List.forall_mem_cons.1 hvalue
      obtain ⟨key, value⟩ := entry
      cases rest with
      | nil =>
          have hmember := ((hfirst text tokens hend h).mark
            (show Lexer.mark? ':' = some .colon from rfl)).quote key
          rw [Json.compactMembers, memberTokens, List.append_assoc]
          exact hmember
      | cons next rest =>
          have hmore := (ih hrest).mark (show Lexer.mark? ',' = some .comma from rfl)
          have hmember := ((hfirst _ _ (delimited_cons ⟨rfl, rfl⟩) hmore).mark
            (show Lexer.mark? ':' = some .colon from rfl)).quote key
          rw [Json.compactMembers, memberTokens]
          · simpa using hmember
          · exact nofun
          · exact nofun

end

/-- **Compact text is read as the tokens of its value**, in front of any text that does not go on
with a word or a numeral. -/
theorem Lexes.compact {value : Json} (hvalue : Legible value) {text : List Char}
    {tokens : List Token} (hend : Delimited text) (h : Lexes text tokens) :
    Lexes (value.compact ++ text) (tokensOf value ++ tokens) := by
  induction hvalue generalizing text tokens with
  | null => exact .word (fun _ _ => rfl) rfl hend h
  | bool b =>
      cases b with
      | true => exact .word (fun _ _ => rfl) rfl hend h
      | false => exact .word (fun _ _ => rfl) rfl hend h
  | int hmin hmax => exact .numeral (Numeral.read?_toString hmin hmax) hend h
  | real hread => exact .numeral hread hend h
  | string s => exact h.quote s
  | array _ ih =>
      have hclose := h.mark (show Lexer.mark? ']' = some .closeArray from rfl)
      have hitems := Lexes.compactItems (fun item hitem text tokens => ih item hitem)
        (delimited_cons ⟨rfl, rfl⟩) hclose
      have hall := hitems.mark (show Lexer.mark? '[' = some .openArray from rfl)
      rw [Json.compact, tokensOf, List.append_assoc, List.append_assoc]
      exact hall
  | object _ ih =>
      have hclose := h.mark (show Lexer.mark? '}' = some .closeObject from rfl)
      have hmembers := Lexes.compactMembers (fun entry hentry text tokens => ih entry hentry)
        (delimited_cons ⟨rfl, rfl⟩) hclose
      have hall := hmembers.mark (show Lexer.mark? '{' = some .openObject from rfl)
      rw [Json.compact, tokensOf, List.append_assoc, List.append_assoc]
      exact hall

/-! ### Parsing -/

namespace Parser

section

variable {stack : List Frame} {rest : List Token}

theorem run_cons {place place' : Place} {stack' : List Frame} {token : Token}
    (h : step? place stack token = some (place', stack')) :
    run place stack (token :: rest) = run place' stack' rest := by
  rw [run, h]

/-- No value starts with the end of an array, so the first item is read like any other. -/
theorem run_firstItem (item : Json) (more before : List Json) :
    run .firstItem (.array before :: stack) (itemTokens (item :: more) ++ rest) =
      run .value (.array before :: stack) (itemTokens (item :: more) ++ rest) := by
  cases more <;> cases item <;> rfl

/-- The value is read from its tokens, whatever is open around it.  What is open is the stack of the
parser, so this is one statement for items, for members and for a whole text. -/
def Reads (value : Json) : Prop :=
  ∀ stack rest, run .value stack (tokensOf value ++ rest) = run (.after value) stack rest

/-- The items of an array up to its end; those before have been read, in reverse. -/
theorem run_itemTokens {items : List Json} (hitems : ∀ item ∈ items, Reads item)
    (hne : items ≠ []) (before : List Json) :
    run .value (.array before :: stack) (itemTokens items ++ .closeArray :: rest) =
      run (.after (.array (before.reverse ++ items))) stack rest := by
  induction items generalizing before with
  | nil => exact absurd rfl hne
  | cons item more ih =>
      obtain ⟨hitem, hmore⟩ := List.forall_mem_cons.1 hitems
      cases more with
      | nil =>
          rw [itemTokens, hitem, run_cons rfl, List.reverse_cons]
      | cons next more =>
          rw [itemTokens, List.append_assoc, hitem, List.cons_append, run_cons rfl,
            ih hmore (List.cons_ne_nil next more), List.reverse_cons, List.append_assoc]
          · rfl
          · exact nofun

/-- A member whose key has been read. -/
def readMember (entry : String × Json) : Option String × Json := (some entry.1, entry.2)

/-- The members of an object up to its end; those before have been read, in reverse. -/
theorem run_memberTokens {members : List (String × Json)}
    (hmembers : ∀ entry ∈ members, Reads entry.2) (hne : members ≠ [])
    (before : List (Option String × Json)) (mayEnd : Bool) :
    run (.key before mayEnd) stack (memberTokens members ++ .closeObject :: rest) =
      run (.after (objectOf ((members.map readMember).reverse ++ before))) stack rest := by
  induction members generalizing before mayEnd with
  | nil => exact absurd rfl hne
  | cons entry more ih =>
      obtain ⟨hvalue, hmore⟩ := List.forall_mem_cons.1 hmembers
      obtain ⟨key, value⟩ := entry
      -- The key and its colon are read, and the value is next.
      have hkey : ∀ tokens, run (.key before mayEnd) stack (.text (some key) :: .colon :: tokens) =
          run .value (.object before (some key) :: stack) tokens := fun tokens => by
        rw [run_cons (show step? _ _ _ = some (.colon before (some key), stack) by
          cases mayEnd <;> rfl), run_cons rfl]
      cases more with
      | nil =>
          rw [memberTokens, List.cons_append, List.cons_append, hkey, hvalue, run_cons rfl]
          rfl
      | cons next more =>
          rw [memberTokens, List.append_assoc, List.cons_append, List.cons_append, hkey, hvalue,
            List.cons_append, run_cons rfl, ih hmore (List.cons_ne_nil next more)]
          · simp [readMember]
          · exact nofun

/-- Closing an object gives the members in the order in which they were read, though the parser
stacks them the other way round. -/
theorem objectOf_readMembers (members : List (String × Json)) :
    objectOf (members.map readMember).reverse = .object members := by
  rw [objectOf, List.reverse_reverse, @mapM_map_eq_some _ _ _ readMember members fun _ _ => rfl]

end

/-- **The tokens of a value are parsed to the value.**  The induction is over the value, and what is
open around it is arbitrary throughout. -/
theorem run_tokensOf {value : Json} (h : Legible value) : Reads value := by
  induction h with
  | null | bool | int | real | string => exact fun stack rest => run_cons rfl
  | @array items _ ih =>
      intro stack rest
      rw [tokensOf, List.append_assoc, List.cons_append, run_cons rfl]
      cases items with
      | nil => exact run_cons rfl
      | cons item more =>
          exact (run_firstItem item more []).trans
            (run_itemTokens ih (List.cons_ne_nil item more) [])
  | @object members _ ih =>
      intro stack rest
      rw [tokensOf, List.append_assoc, List.cons_append, run_cons rfl]
      cases members with
      | nil => exact run_cons rfl
      | cons entry more =>
          refine (run_memberTokens ih (List.cons_ne_nil entry more) [] true).trans ?_
          rw [List.append_nil, objectOf_readMembers]
          rfl

end Parser

/-- **A text of the tokens of a value is read as the value**, whatever its layout.  The bound on
nesting is not part of this: it is applied to the value that is read. -/
theorem ofPieces?_of_lexes {value : Json} (h : Legible value) {text : List Char}
    (hlexes : Lexes text (tokensOf value)) : ofPieces? (text.map .char) = some value := by
  have htokens : tokens (text.map .char) = some (tokensOf value) := hlexes []
  have hrun := Parser.run_tokensOf h [] []
  rw [List.append_nil] at hrun
  rw [ofPieces?, htokens]
  exact hrun

/-- **Compact text is read back**, if the value is legible. -/
theorem ofPieces?_compact {value : Json} (h : Legible value) :
    ofPieces? (value.compact.map .char) = some value := by
  have hlexes := Lexes.compact h delimited_nil Lexes.nil
  rw [List.append_nil, List.append_nil] at hlexes
  exact ofPieces?_of_lexes h hlexes

theorem ofText?_toText {value : Json} (h : Legible value) : ofText? value.toText = some value := by
  rw [ofText?, toText, String.toList_ofList, ofPieces?_compact h]

/-- **The octets of compact text are read back.** -/
theorem ofBytes?_compact {value : Json} (h : Legible value) :
    ofBytes? (Utf8.encode value.compact) = some value := by
  rw [ofBytes?, Utf8.pieces_encode, ofPieces?_compact h]

end Json

end FieldGrammar
