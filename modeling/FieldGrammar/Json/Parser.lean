import FieldGrammar.Json.Lexer

/-!
# From tokens to a value

The parser walks once over the tokens with a stack of the arrays and objects that are open, so
nesting costs no recursion and a text is read in a single structural pass.  What may come next
is the `Place`; what is open around it is the list of `Frame`s.

Main definitions: `Json.ofText?` and `Json.ofBytes?`.
-/

namespace FieldGrammar

namespace Json

namespace Parser

/-- An open array or object around the value that is being read, with what it holds so far in
reverse. -/
inductive Frame where
  | array (items : List Json)
  | object (members : List (Option String × Json)) (key : Option String)

/-- What may come next. -/
inductive Place where
  /-- A value. -/
  | value
  /-- A value, or the end of the array that has just been opened. -/
  | firstItem
  /-- A key of an object with these members, or its end where it is allowed. -/
  | key (members : List (Option String × Json)) (mayEnd : Bool)
  /-- The colon after a key. -/
  | colon (members : List (Option String × Json)) (key : Option String)
  /-- Whatever follows a complete value. -/
  | after (value : Json)

/-- The value of a string token. -/
def textValue : Option String → Json
  | some s => .string s
  | none => .unreadable

/-- The object of members in reverse; a key that cannot be read spoils it. -/
def objectOf (members : List (Option String × Json)) : Json :=
  match members.reverse.mapM fun (key, value) => key.map fun key => (key, value) with
  | some members => .object members
  | none => .unreadable

/-- What a token begins where a value is expected. -/
def beginValue (stack : List Frame) : Token → Option (Place × List Frame)
  | .literal value => some (.after value, stack)
  | .text content => some (.after (textValue content), stack)
  | .openArray => some (.firstItem, .array [] :: stack)
  | .openObject => some (.key [] true, stack)
  | _ => none

/-- What the next token does. -/
def step? : Place → (stack : List Frame) → Token → Option (Place × List Frame)
  | .value, stack, token => beginValue stack token
  | .firstItem, .array items :: stack, .closeArray => some (.after (.array items.reverse), stack)
  | .firstItem, stack, token => beginValue stack token
  | .key members _, stack, .text content => some (.colon members content, stack)
  | .key members true, stack, .closeObject => some (.after (objectOf members), stack)
  | .colon members key, stack, .colon => some (.value, .object members key :: stack)
  | .after value, .array items :: stack, .comma => some (.value, .array (value :: items) :: stack)
  | .after value, .array items :: stack, .closeArray =>
    some (.after (.array (value :: items).reverse), stack)
  | .after value, .object members key :: stack, .comma =>
    some (.key ((key, value) :: members) false, stack)
  | .after value, .object members key :: stack, .closeObject =>
    some (.after (objectOf ((key, value) :: members)), stack)
  | _, _, _ => none

/-- Reads tokens up to the end. -/
def run : Place → (stack : List Frame) → List Token → Option Json
  | .after value, [], [] => some value
  | _, _, [] => none
  | place, stack, token :: rest =>
    match step? place stack token with
    | some (place, stack) => run place stack rest
    | none => none

end Parser

/-- The value of a text given by its pieces. -/
def ofPieces? (text : List Utf8.Piece) : Option Json := do
  Parser.run .value [] (← tokens text)

/-- The value of a text. -/
def ofText? (text : String) : Option Json :=
  ofPieces? (text.toList.map .char)

/-- The value of a text given by its octets. -/
def ofBytes? (bytes : List UInt8) : Option Json :=
  ofPieces? (Utf8.pieces bytes)

end Json

end FieldGrammar
