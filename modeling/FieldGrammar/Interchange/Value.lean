import FieldGrammar.Data.Value
import FieldGrammar.Error
import FieldGrammar.Json.Parser
import FieldGrammar.Json.Printer

/-!
# Data values and JSON

A value is written as the JSON value of its kind.  In reading, an integer numeral within the
signed 64-bit range is an integer, every other number is a fixed-point number, and of a repeated
name in an object the last value counts, at the place of the first.
-/

namespace FieldGrammar

namespace Value

mutual

/-- The JSON value that a data value is written as. -/
def toJson : Value → Json
  | null => .null
  | bool b => .bool b
  | int n => .int n.toInt
  | fixed x => .real x
  | string s => .string s
  | array items => .array (toJsonItems items)
  | object entries => .object (toJsonMembers entries)

/-- The items of an array. -/
def toJsonItems : List Value → List Json
  | [] => []
  | item :: rest => toJson item :: toJsonItems rest

/-- The members of an object. -/
def toJsonMembers : List (String × Value) → List (String × Json)
  | [] => []
  | (key, value) :: rest => (key, toJson value) :: toJsonMembers rest

end

mutual

/-- The data value that a JSON value writes. -/
def ofJson? : Json → Option Value
  | .null => some .null
  | .bool b => some (.bool b)
  | .int n =>
    match (Json.int n).asInt64? with
    | some n => some (.int n)
    | none => some (.fixed (Float.ofInt n))
  | .real x => some (.fixed x)
  | .string s => some (.string s)
  | .array items => (ofJsonItems? items).map .array
  | .object members => (ofJsonMembers? members).map fun entries => .object (Entries.ofList entries)
  | .unreadable => none

/-- The items of an array. -/
def ofJsonItems? : List Json → Option (List Value)
  | [] => some []
  | item :: rest => do
    let first ← ofJson? item
    let more ← ofJsonItems? rest
    return first :: more

/-- The members of an object. -/
def ofJsonMembers? : List (String × Json) → Option (List (String × Value))
  | [] => some []
  | (key, value) :: rest => do
    let first ← ofJson? value
    let more ← ofJsonMembers? rest
    return (key, first) :: more

end

/-- The compact JSON text of a value. -/
def toJsonText (value : Value) : String :=
  value.toJson.toText

/-- The value that a JSON text writes. -/
def ofJsonText (text : String) : Except Error Value :=
  match Json.ofText? text with
  | none => .error (.json .malformed)
  | some json =>
    if !json.readableWithin Json.maxNesting then .error (.json .malformed)
    else match ofJson? json with
      | some value => .ok value
      | none => .error (.json .mismatched)

end Value

end FieldGrammar
