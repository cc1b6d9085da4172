/-!
# JSON values

`Json` is the tree that JSON text writes.  Objects keep their members in the order of the text,
repeated names included; what a repetition means is for the reader of the object to say.

A number is an integer if it is written as one and fits the union of the signed and the
unsigned 64-bit range; every other number is a floating-point number.  A literal can be well
formed and yet say nothing: a number beyond every floating-point number, or a string with half
of a surrogate pair.  Such a literal is `unreadable`; a reader that skips over it does not mind.

## Main definitions

* `Json`
* `Json.readableWithin` — no unreadable part, and nesting within a bound
-/

namespace FieldGrammar

/-- A JSON value. -/
inductive Json where
  | null
  | bool (b : Bool)
  | int (n : Int)
  | real (x : Float)
  | string (s : String)
  | array (items : List Json)
  | object (members : List (String × Json))
  | unreadable
  deriving Inhabited

namespace Json

/-- The greatest number of arrays and objects inside one another that is read. -/
def maxNesting : Nat := 127

mutual

/-- Whether a value has no unreadable part and at most `levels` arrays and objects inside one
another. -/
def readableWithin : (levels : Nat) → Json → Bool
  | _, .unreadable => false
  | 0, .array _ | 0, .object _ => false
  | levels + 1, .array items => itemsReadableWithin levels items
  | levels + 1, .object members => membersReadableWithin levels members
  | _, _ => true

/-- The same of all items of an array. -/
def itemsReadableWithin : (levels : Nat) → List Json → Bool
  | _, [] => true
  | levels, item :: rest => readableWithin levels item && itemsReadableWithin levels rest

/-- The same of all members of an object. -/
def membersReadableWithin : (levels : Nat) → List (String × Json) → Bool
  | _, [] => true
  | levels, (_, value) :: rest => readableWithin levels value && membersReadableWithin levels rest

end

/-- The string, if the value is one. -/
def asString? : Json → Option String
  | string s => some s
  | _ => none

/-- The number as a 64-bit integer, if it is written as an integer and fits. -/
def asInt64? : Json → Option Int64
  | int n =>
    if Int64.minValue.toInt ≤ n ∧ n ≤ Int64.maxValue.toInt then some (Int64.ofInt n) else none
  | _ => none

/-- The number as a length, if it is written as an integer and fits. -/
def asUInt32? : Json → Option UInt32
  | int n => if 0 ≤ n ∧ n < UInt32.size then some (UInt32.ofNat n.toNat) else none
  | _ => none

/-- The number as a floating-point number, however it is written. -/
def asFloat? : Json → Option Float
  | int n => some (Float.ofInt n)
  | real x => some x
  | _ => none

/-- The items, if the value is an array. -/
def asArray? : Json → Option (List Json)
  | array items => some items
  | _ => none

/-- The members, if the value is an object. -/
def asObject? : Json → Option (List (String × Json))
  | object members => some members
  | _ => none

/-- The strings, if the value is an array of strings. -/
def asStrings? (value : Json) : Option (List String) := do
  (← value.asArray?).mapM asString?

end Json

end FieldGrammar
