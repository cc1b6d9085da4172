import FieldGrammar.Data.Value
import FieldGrammar.Node.Scope
import FieldGrammar.Packing.Range

/-!
# Writing data

Data are written against a list of fields, in declaration order, and nothing about the shape is
written: reading needs the same fields.

| Kind | Bits |
|---|---|
| bool | 1 |
| int | the offset from `min`, in the width of `max - min` |
| fixed | the offset in steps from the step of `min`, in the width of the range of steps |
| enumeration | the option's index, in the width of the greatest index |
| optional | a presence bit, then the inner field if present |
| array, enumeration array | the offset of the length from `minLength`, then each item |
| object | each field |
| union | the discriminator as an enumeration, then the fields of the chosen variant |
| pointer | the layout of its target |

Recursion is split in two.  `Packing.writeNode` descends through a node and leaves pointers to
a function that it is given; `Packing.followWrite` is that function, by recursion on the number
of pointers that may still be followed.  Both are structural, so the bits of concrete data can
be computed by the kernel.
-/

namespace FieldGrammar

namespace Packing

/-- The error of a value of the wrong kind. -/
def mismatch (field expected : String) (found : Value) : Error :=
  .invalidData field (.mismatch expected found.kind)

/-- The bits of an option and the option itself. -/
def writeOption (e : Enumeration) (value : Value) : Except Error (String × Bits) :=
  match value.asString? with
  | none => .error (mismatch e.name "enum option" value)
  | some option =>
    match e.indexOf? option with
    | none => .error (.outOfBounds e.name (.option option e.options))
    | some index => .ok (option, Bits.ofNat (Bits.width (lastIndex e.options.length)) index)

/-- The bits of the length of an array. -/
def writeLength (name : String) (length : Nat) (minLength maxLength : UInt32) :
    Except Error Bits :=
  if length < minLength.toNat ∨ maxLength.toNat < length then
    .error (.outOfBounds name (.length length minLength maxLength))
  else
    .ok (Bits.ofNat (Bits.width (lengthSpan minLength maxLength)) (length - minLength.toNat))

/-- The bits of an integer between bounds. -/
def writeInt (name : String) (min max : Int64) (value : Value) : Except Error Bits :=
  match value.asInt? with
  | none => .error (mismatch name "int" value)
  | some n =>
    if n < min ∨ max < n then .error (.outOfBounds name (.int n min max))
    else .ok (Bits.ofNat (Bits.width (distance min max)) (distance min n))

/-- The bits of a fixed-point number between bounds.  Bounds are compared on the grid. -/
def writeFixed (name : String) (min max precision : Float) (value : Value) :
    Except Error Bits :=
  match value.asFixed? with
  | none => .error (mismatch name "fixed" value)
  | some x =>
    let grid := Grid.ofPrecision precision
    let low := grid.stepsOf min
    let high := grid.stepsOf max
    let steps := grid.stepsOf x
    if !x.isFinite ∨ steps < low ∨ high < steps then
      .error (.outOfBounds name (.fixed x min max))
    else .ok (Bits.ofNat (Bits.width (distance low high)) (distance low steps))

/-- How a pointer is written: its own name, the name of its target, and the value. -/
abbrev WritePointer := (name target : String) → Value → Except Error Bits

section

variable (follow : WritePointer)

mutual

/-- The bits of a value against a node. -/
def writeNode : Node → Value → Except Error Bits
  | .bool name, value =>
    match value.asBool? with
    | some b => .ok [b]
    | none => .error (mismatch name "bool" value)
  | .int name min max, value => writeInt name min max value
  | .fixed name min max precision, value => writeFixed name min max precision value
  | .enumeration e, value => do
    let (_, bits) ← writeOption e value
    return bits
  | .optional _ inner, value =>
    if value.isNull then .ok [false]
    else do
      let bits ← writeNode inner value
      return true :: bits
  | .array name minLength maxLength item, value =>
    match value.asArray? with
    | none => .error (mismatch name "array" value)
    | some items => do
      let length ← writeLength name items.length minLength maxLength
      let parts ← items.mapM fun element => writeNode item element
      return length ++ parts.flatten
  | .enumArray name minLength maxLength e, value =>
    match value.asArray? with
    | none => .error (mismatch name "array" value)
    | some items => do
      let length ← writeLength name items.length minLength maxLength
      let parts ← items.mapM fun element => writeOption e element
      return length ++ (parts.map Prod.snd).flatten
  | .object name fields, value =>
    match value.asObject? with
    | none => .error (mismatch name "object" value)
    | some entries => writeFields fields entries
  | .union name discriminator variants, value =>
    match value.asObject? with
    | none => .error (mismatch name "object" value)
    | some entries => do
      let (option, bits) ← writeOption discriminator (Entries.getOrNull entries discriminator.name)
      let rest ← writeVariant variants option entries
      return bits ++ rest
  | .pointer name target, value => follow name target value

/-- The bits of the entries that a list of fields names, in the order of the fields.  An entry
that is absent counts as null. -/
def writeFields : List Node → Entries Value → Except Error Bits
  | [], _ => .ok []
  | field :: rest, entries => do
    let bits ← writeNode field (Entries.getOrNull entries field.name)
    let more ← writeFields rest entries
    return bits ++ more

/-- The bits of the fields of one variant; an option without a variant has none. -/
def writeVariant : List (String × List Node) → String → Entries Value → Except Error Bits
  | [], _, _ => .ok []
  | (key, fields) :: rest, option, entries =>
    if key = option then writeFields fields entries else writeVariant rest option entries

end

/-- A pointer is written as it is followed. -/
theorem writeNode_pointer (name target : String) (value : Value) :
    writeNode follow (.pointer name target) value = follow name target value := by
  rw [writeNode]

end

/-- Writes a value at the target of a pointer, with `budget` pointers left to follow out of
`limit`.  A missing target is reported before an exhausted budget. -/
def followWrite (scope : List Node) (limit : Nat) : (budget : Nat) → WritePointer
  | 0, name, target, _ =>
    match resolveTarget scope target with
    | none => .error (.unresolvedPointer name target)
    | some _ => .error (.depthExceeded name (limit + 1) limit)
  | budget + 1, name, target, value =>
    match resolveTarget scope target with
    | none => .error (.unresolvedPointer name target)
    | some node => writeNode (followWrite scope limit budget) node value

/-- The bits of an object against a schema's fields. -/
def writeData (fields : List Node) (data : Value) (pointerDepth : Nat) : Except Error Bits :=
  match data.asObject? with
  | none => .error (mismatch "<root>" "object" data)
  | some entries => writeFields (followWrite fields pointerDepth pointerDepth) fields entries

end Packing

end FieldGrammar
