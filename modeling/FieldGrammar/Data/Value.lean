import FieldGrammar.Data.Entries
import FieldGrammar.Decimal.Binary

/-!
# Data values

`Value` is the data that a schema describes: what the derivation of defaults produces and
what the packing of data consumes.

| Field kind | Value |
|---|---|
| bool | `bool` |
| int | `int` |
| fixed | `fixed`; an `int` is accepted on input |
| enumeration | `string`, one of the options |
| optional, pointer | `null` when absent |
| array, enumeration array | `array` |
| object, union | `object`, by field name |
-/

namespace FieldGrammar

/-- A data value.  The entries of an object have distinct names. -/
inductive Value where
  | null
  | bool (b : Bool)
  | int (n : Int64)
  | fixed (x : Float)
  | string (s : String)
  | array (items : List Value)
  | object (entries : List (String × Value))
  deriving Inhabited

namespace Value

/-- The name of the variant, as messages give it. -/
def kind : Value → String
  | null => "null"
  | bool _ => "bool"
  | int _ => "int"
  | fixed _ => "fixed"
  | string _ => "string"
  | array _ => "array"
  | object _ => "object"

/-- Whether the value is null. -/
def isNull : Value → Bool
  | null => true
  | _ => false

/-- The truth value, if it is one. -/
def asBool? : Value → Option Bool
  | bool b => some b
  | _ => none

/-- The text, if it is one. -/
def asString? : Value → Option String
  | string s => some s
  | _ => none

/-- The integer, if the value is an integer or a fixed-point number without fraction.  A
fixed-point number beyond the 64-bit range gives the end of the range. -/
def asInt? : Value → Option Int64
  | int n => some n
  | fixed x => (Binary64.wholeValue? x).map clampInt64
  | _ => none

/-- The number, if the value is numeric. -/
def asFixed? : Value → Option Float
  | int n => some (Binary64.ofInt64 n)
  | fixed x => some x
  | _ => none

/-- The items, if the value is an array. -/
def asArray? : Value → Option (List Value)
  | array items => some items
  | _ => none

/-- The entries, if the value is an object. -/
def asObject? : Value → Option (Entries Value)
  | object entries => some entries
  | _ => none

end Value

/-- The value under a name of an object, null when the name is absent. -/
def Entries.getOrNull (entries : Entries Value) (key : String) : Value :=
  (Entries.get? entries key).getD .null

end FieldGrammar
