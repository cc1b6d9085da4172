import FieldGrammar.Data.Value
import FieldGrammar.Decimal.Layout
import FieldGrammar.Text.GraphemeExtend
import FieldGrammar.Text.Unprintable

/-!
# Texts for people

Messages and data texts show strings and characters between quote marks.  The backslash, the
quote mark in use, tab, line feed, carriage return and NUL have short escapes; a character
without a visible form is written by its number, `\u{1b}`, and so is a character that would
combine with the one before it.

The text of a data value is like compact JSON, with strings quoted in this way and with numbers in
plain form, never with an exponent.

## Main definitions

* `Quoting` — which of the optional escapes apply
* `quoteString`, `quoteStrings`, `quoteChar` — a string, a list of strings, a character
* `escapeBare` — a string without quote marks, safe inside either kind
* `Value.display` — the text of a data value
-/

namespace FieldGrammar

/-! ## Quoted text -/

/-- Which of the optional escapes apply. -/
structure Quoting where
  /-- The single quote mark is escaped. -/
  single : Bool
  /-- The double quote mark is escaped. -/
  double : Bool
  /-- A character that extends the one before it is escaped. -/
  extending : Bool

namespace Quoting

/-- A character by its number. -/
def numbered (c : Char) : List Char :=
  '\\' :: 'u' :: '{' :: Nat.toDigits 16 c.toNat ++ ['}']

/-- The characters that write one character. -/
def escape (q : Quoting) (c : Char) : List Char :=
  match c with
  | '\x00' => ['\\', '0']
  | '\t' => ['\\', 't']
  | '\r' => ['\\', 'r']
  | '\n' => ['\\', 'n']
  | '\\' => ['\\', '\\']
  | '\x22' => if q.double then ['\\', '\x22'] else ['\x22']
  | '\x27' => if q.single then ['\\', '\x27'] else ['\x27']
  | c =>
    if q.extending && isGraphemeExtend c then numbered c
    else if isUnprintable c then numbered c
    else [c]

end Quoting

/-- A string between double quote marks. -/
def quoteString (s : String) : String :=
  String.ofList ('\x22' :: s.toList.flatMap (Quoting.escape ⟨false, true, true⟩) ++ ['\x22'])

/-- A list of strings in brackets, each between double quote marks. -/
def quoteStrings (strings : List String) : String :=
  "[" ++ ", ".intercalate (strings.map quoteString) ++ "]"

/-- A character between single quote marks. -/
def quoteChar (c : Char) : String :=
  String.ofList ('\x27' :: Quoting.escape ⟨true, false, true⟩ c ++ ['\x27'])

/-- A string without quote marks in which both kinds are escaped.  A combining character is
written by its number only in front, where there is nothing for it to combine with. -/
def escapeBare (s : String) : String :=
  match s.toList with
  | [] => ""
  | c :: rest =>
    String.ofList (Quoting.escape ⟨true, true, true⟩ c ++
      rest.flatMap (Quoting.escape ⟨true, true, false⟩))

/-! ## Data values -/

namespace Value

mutual

/-- The text of a value. -/
def display : Value → String
  | null => "null"
  | bool b => if b then "true" else "false"
  | int n => toString n.toInt
  | fixed x => NumberStyle.plain.text x
  | string s => quoteString s
  | array items => "[" ++ ",".intercalate (displayItems items) ++ "]"
  | object entries => "\x7b" ++ ",".intercalate (displayEntries entries) ++ "\x7d"

/-- The texts of the items of an array. -/
def displayItems : List Value → List String
  | [] => []
  | item :: rest => display item :: displayItems rest

/-- The texts of the entries of an object. -/
def displayEntries : List (String × Value) → List String
  | [] => []
  | (key, value) :: rest => (quoteString key ++ ":" ++ display value) :: displayEntries rest

end

end Value

end FieldGrammar
