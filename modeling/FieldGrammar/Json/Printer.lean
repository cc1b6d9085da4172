import FieldGrammar.Decimal.Layout
import FieldGrammar.Json.Basic

/-!
# Writing JSON text

Text is written compactly, without any blank, or laid out with one member or item a line and
an indentation of two blanks; empty arrays and objects stay on their line.  In strings, quote
mark, backslash and the control characters are escaped, the latter by a letter where there is
one; everything else is written as it is.  What JSON cannot write is `null`.
-/

namespace FieldGrammar

namespace Json

/-- A hexadecimal digit. -/
def hexDigit (n : Nat) : Char :=
  "0123456789abcdef".toList.getD n '0'

/-- The characters that write one character of a string. -/
def escape (c : Char) : List Char :=
  match c with
  | '\x22' => ['\\', '\x22']
  | '\\' => ['\\', '\\']
  | '\x08' => ['\\', 'b']
  | '\x0c' => ['\\', 'f']
  | '\n' => ['\\', 'n']
  | '\r' => ['\\', 'r']
  | '\t' => ['\\', 't']
  | c =>
    if c.toNat < 0x20 then ['\\', 'u', '0', '0', hexDigit (c.toNat / 16), hexDigit (c.toNat % 16)]
    else [c]

/-- The characters of a string between quote marks. -/
def quote (s : String) : List Char :=
  '\x22' :: s.toList.flatMap escape ++ ['\x22']

mutual

/-- The characters of a value in compact form. -/
def compact : Json → List Char
  | .null | .unreadable => "null".toList
  | .bool true => "true".toList
  | .bool false => "false".toList
  | .int n => (toString n).toList
  | .real x => NumberStyle.json.chars x
  | .string s => quote s
  | .array items => '[' :: compactItems items ++ [']']
  | .object members => '{' :: compactMembers members ++ ['}']

/-- The items of an array with commas between them. -/
def compactItems : List Json → List Char
  | [] => []
  | [item] => compact item
  | item :: rest => compact item ++ ',' :: compactItems rest

/-- The members of an object with commas between them. -/
def compactMembers : List (String × Json) → List Char
  | [] => []
  | [(key, value)] => quote key ++ ':' :: compact value
  | (key, value) :: rest => quote key ++ ':' :: compact value ++ ',' :: compactMembers rest

end

/-- The beginning of a line. -/
def newLine (indent : Nat) : List Char :=
  '\n' :: List.replicate (2 * indent) ' '

mutual

/-- The characters of a value laid out over lines, `indent` steps in. -/
def pretty (indent : Nat) : Json → List Char
  | .array [] => ['[', ']']
  | .array (item :: rest) =>
    '[' :: prettyItems (indent + 1) (item :: rest) ++ newLine indent ++ [']']
  | .object [] => ['{', '}']
  | .object (entry :: rest) =>
    '{' :: prettyMembers (indent + 1) (entry :: rest) ++ newLine indent ++ ['}']
  | .null | .unreadable => "null".toList
  | .bool true => "true".toList
  | .bool false => "false".toList
  | .int n => (toString n).toList
  | .real x => NumberStyle.json.chars x
  | .string s => quote s

/-- The items of an array, each on a line of its own. -/
def prettyItems (indent : Nat) : List Json → List Char
  | [] => []
  | [item] => newLine indent ++ pretty indent item
  | item :: rest => newLine indent ++ pretty indent item ++ ',' :: prettyItems indent rest

/-- The members of an object, each on a line of its own. -/
def prettyMembers (indent : Nat) : List (String × Json) → List Char
  | [] => []
  | [(key, value)] => newLine indent ++ quote key ++ ':' :: ' ' :: pretty indent value
  | (key, value) :: rest =>
    newLine indent ++ quote key ++ ':' :: ' ' :: pretty indent value ++
      ',' :: prettyMembers indent rest

end

/-- The compact text of a value. -/
def toText (value : Json) : String :=
  String.ofList value.compact

/-- The text of a value laid out over lines. -/
def toPrettyText (value : Json) : String :=
  String.ofList (value.pretty 0)

end Json

end FieldGrammar
