import FieldGrammar.Json.Numeral
import FieldGrammar.Text.Utf8

/-!
# Tokens of JSON text

One pass over the pieces of a text.  Numerals and words are gathered for as long as their
characters last and judged when they end, and strings are read by a small machine of their own:
escapes, and pairs of escapes that together make one character.

A string keeps track of whether it says anything.  Stray octets in it, or half of a surrogate
pair, make it a token without content; a raw control character or a bad escape makes the text no
JSON at all.
-/

namespace FieldGrammar

namespace Json

/-- A token of JSON text. -/
inductive Token where
  | openArray
  | closeArray
  | openObject
  | closeObject
  | comma
  | colon
  /-- A number or one of the three words. -/
  | literal (value : Json)
  /-- A string; nothing if it cannot be read. -/
  | text (content : Option String)

namespace Lexer

/-- Where a string is being read. -/
inductive Phase where
  | plain
  | escape
  /-- Inside the number of an escape: how many digits have been read and their value. -/
  | hex (digits value : Nat)

/-- A string being read: its characters so far in reverse, whether they can be read, and the
first half of a surrogate pair whose second half must come next. -/
structure Scan where
  chars : List Char
  sound : Bool
  half : Option Nat

namespace Scan

/-- The scan at the beginning of a string. -/
def start : Scan := ⟨[], true, none⟩

/-- The next character.  A half pair before it stays half. -/
def push (s : Scan) (c : Char) : Scan :=
  ⟨c :: s.chars, s.sound && s.half.isNone, none⟩

/-- A part that cannot be read. -/
def spoil (s : Scan) : Scan :=
  ⟨s.chars, false, none⟩

/-- The number of an escape. -/
def pushUnit (s : Scan) (value : Nat) : Scan :=
  let first := 0xD800 ≤ value && value < 0xDC00
  let second := 0xDC00 ≤ value && value < 0xE000
  match s.half with
  | some half =>
    if second then
      ⟨Char.ofNat (0x10000 + (half - 0xD800) * 0x400 + (value - 0xDC00)) :: s.chars, s.sound, none⟩
    else s.spoil
  | none =>
    if first then ⟨s.chars, s.sound, some value⟩
    else if second then s.spoil
    else s.push (Char.ofNat value)

/-- The token of a finished string. -/
def finish (s : Scan) : Token :=
  .text (if s.sound && s.half.isNone then some (String.ofList s.chars.reverse) else none)

end Scan

/-- What the lexer is in the middle of.  Words and numerals hold their characters in reverse. -/
inductive Mode where
  | between
  | word (letters : List Char)
  | numeral (chars : List Char)
  | string (phase : Phase) (scan : Scan)

/-- Whether a character belongs to a word. -/
def isWordChar (c : Char) : Bool :=
  c.isLower

/-- Whether a character belongs to a numeral. -/
def isNumeralChar (c : Char) : Bool :=
  c.isDigit || c == '-' || c == '+' || c == '.' || c == 'e' || c == 'E'

/-- Whether a character may stand between tokens. -/
def isBlank (c : Char) : Bool :=
  c == ' ' || c == '\n' || c == '\t' || c == '\r'

/-- The value of a word. -/
def word? (letters : List Char) : Option Json :=
  match String.ofList letters with
  | "null" => some .null
  | "true" => some (.bool true)
  | "false" => some (.bool false)
  | _ => none

/-- The character that a one-letter escape stands for. -/
def escape? : Char → Option Char
  | '\x22' => some '\x22'
  | '\\' => some '\\'
  | '/' => some '/'
  | 'b' => some '\x08'
  | 'f' => some '\x0c'
  | 'n' => some '\n'
  | 'r' => some '\r'
  | 't' => some '\t'
  | _ => none

/-- The value of a hexadecimal digit. -/
def hexDigit? (c : Char) : Option Nat :=
  if '0' ≤ c ∧ c ≤ '9' then some (c.toNat - '0'.toNat)
  else if 'a' ≤ c ∧ c ≤ 'f' then some (c.toNat - 'a'.toNat + 10)
  else if 'A' ≤ c ∧ c ≤ 'F' then some (c.toNat - 'A'.toNat + 10)
  else none

/-- The token of one character, if it is one. -/
def mark? : Char → Option Token
  | '[' => some .openArray
  | ']' => some .closeArray
  | '{' => some .openObject
  | '}' => some .closeObject
  | ',' => some .comma
  | ':' => some .colon
  | _ => none

/-- What a character between tokens begins; `done` holds the tokens so far in reverse. -/
def begin? (c : Char) (done : List Token) : Option (Mode × List Token) :=
  if isBlank c then some (.between, done)
  else if c == '\x22' then some (.string .plain .start, done)
  else if c.isDigit || c == '-' then some (.numeral [c], done)
  else if isWordChar c then some (.word [c], done)
  else (mark? c).map fun token => (.between, token :: done)

/-- What the next character does to a string. -/
def stepString (phase : Phase) (scan : Scan) (c : Char) (done : List Token) :
    Option (Mode × List Token) :=
  match phase with
  | .plain =>
    if c == '\x22' then some (.between, scan.finish :: done)
    else if c == '\\' then some (.string .escape scan, done)
    else if c.toNat < 0x20 then none
    else some (.string .plain (scan.push c), done)
  | .escape =>
    if c == 'u' then some (.string (.hex 0 0) scan, done)
    else (escape? c).map fun c => (.string .plain (scan.push c), done)
  | .hex digits value =>
    (hexDigit? c).map fun digit =>
      let value := 16 * value + digit
      if digits = 3 then (.string .plain (scan.pushUnit value), done)
      else (.string (.hex (digits + 1) value) scan, done)

/-- What the next piece of the text does. -/
def step? (mode : Mode) (done : List Token) : Utf8.Piece → Option (Mode × List Token)
  | .char c =>
    match mode with
    | .between => begin? c done
    | .word letters =>
      if isWordChar c then some (.word (c :: letters), done)
      else do begin? c (.literal (← word? letters.reverse) :: done)
    | .numeral chars =>
      if isNumeralChar c then some (.numeral (c :: chars), done)
      else do begin? c (.literal (← Numeral.read? chars.reverse) :: done)
    | .string phase scan => stepString phase scan c done
  | .stray _ =>
    match mode with
    | .string .plain scan => some (.string .plain scan.spoil, done)
    | _ => none
  | .cut => none

/-- The tokens of a text, if all of them are well formed. -/
def tokensFrom : (mode : Mode) → (done : List Token) → List Utf8.Piece → Option (List Token)
  | .between, done, [] => some done.reverse
  | .word letters, done, [] => do
    return (.literal (← word? letters.reverse) :: done).reverse
  | .numeral chars, done, [] => do
    return (.literal (← Numeral.read? chars.reverse) :: done).reverse
  | .string .., _, [] => none
  | mode, done, piece :: rest =>
    match step? mode done piece with
    | some (mode, done) => tokensFrom mode done rest
    | none => none

end Lexer

/-- The tokens of a text. -/
def tokens (text : List Utf8.Piece) : Option (List Token) :=
  Lexer.tokensFrom .between [] text

end Json

end FieldGrammar
