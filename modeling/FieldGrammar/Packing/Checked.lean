import FieldGrammar.Packing.DataToken

/-!
# Data under checked arithmetic

Writing and reading data subtract lengths, take distances between bounds in 64-bit words, and turn
offsets back into 64-bit integers.  This module has both traversals once more, with every step of
that arithmetic *checked*: a difference below zero, a number that its word does not hold or a width
of more than 64 bits halts the run.  Such a halt is none of the errors that writing and reading
report, and the errors are reported in the same order as there.

The steps are taken where the running functions take them.  In particular the greatest index of an
enumeration is computed before its bits are read, and the budget of a pointer is lowered after its
target was found and the budget was seen not to be used up.

## Main definitions

* `Checked` — what a run under checked arithmetic ends with
* `Checked.sub`, `Checked.lower`, `Checked.word`, `Checked.integer`, `Checked.width` — the steps
  that are checked
* `Checked.packData`, `Checked.unpackData` — writing and reading data
-/

namespace FieldGrammar

namespace Checked

/-- Why a run under checked arithmetic halts. -/
inductive Halt where
  /-- A difference is below zero. -/
  | underflow (a b : Nat)
  /-- An integer is outside the range of its word. -/
  | misfit (n : Int)
  /-- The offsets up to a bound need more than 64 bits. -/
  | tooWide (bound : Nat)
  /-- An error that has nothing to do with arithmetic. -/
  | refused (e : Error)

end Checked

/-- A result under checked arithmetic. -/
abbrev Checked (α : Type) := Except Checked.Halt α

namespace Checked

variable {α : Type}

/-- A result without arithmetic of its own. -/
def lift (x : Except Error α) : Checked α :=
  x.mapError .refused

/-- Reports an error. -/
def refuse (e : Error) : Checked α :=
  .error (.refused e)

/-! ### Checked steps -/

/-- The difference of two numbers. -/
def sub (a b : Nat) : Checked Nat :=
  if b ≤ a then .ok (a - b) else .error (.underflow a b)

/-- An integer as a 64-bit word. -/
def word (n : Int) : Checked Nat :=
  if 0 ≤ n ∧ n < UInt64.size then .ok n.toNat else .error (.misfit n)

/-- An integer as a 64-bit integer. -/
def integer (n : Int) : Checked Int64 :=
  if Int64.minValue.toInt ≤ n ∧ n ≤ Int64.maxValue.toInt then .ok (Int64.ofInt n)
  else .error (.misfit n)

/-- The number of bits of the offsets up to a bound. -/
def width (bound : Nat) : Checked Nat :=
  if Bits.width bound ≤ 64 then .ok (Bits.width bound) else .error (.tooWide bound)

/-- The distance from `low` to `high`. -/
def distance (low high : Int64) : Checked Nat :=
  word (high.toInt - low.toInt)

/-- An offset in the width of the offsets up to a bound. -/
def offsetBits (bound offset : Nat) : Checked Bits := do
  let count ← width bound
  return Bits.ofNat count offset

/-- Reads an offset in the width of the offsets up to a bound. -/
def readBounded (bound : Nat) (r : BitReader) : Checked (Nat × BitReader) := do
  let count ← width bound
  lift (r.read count)

/-- The budget that is left when a pointer has been followed. -/
def lower (budget : Nat) : Checked (Fin budget) :=
  if h : 1 ≤ budget then .ok ⟨budget - 1, Nat.sub_one_lt_of_le h (Nat.le_refl _)⟩
  else .error (.underflow budget 1)

/-- The node that a pointer refers to, if there is budget to follow it. -/
def enter (scope : List Node) (limit budget : Nat) (name target : String) : Checked Node :=
  match resolveTarget scope target with
  | none => refuse (.unresolvedPointer name target)
  | some node =>
    if budget = 0 then refuse (.depthExceeded name (limit + 1) limit) else .ok node

/-! ### Writing -/

/-- The bits of an option and the option itself. -/
def writeOption (e : Enumeration) (value : Value) : Checked (String × Bits) :=
  match value.asString? with
  | none => refuse (Packing.mismatch e.name "enum option" value)
  | some option =>
    match e.indexOf? option with
    | none => refuse (.outOfBounds e.name (.option option e.options))
    | some index => do
      let last ← sub e.options.length 1
      let bits ← offsetBits last index
      return (option, bits)

/-- The bits of the length of an array. -/
def writeLength (name : String) (length : Nat) (minLength maxLength : UInt32) : Checked Bits :=
  if length < minLength.toNat ∨ maxLength.toNat < length then
    refuse (.outOfBounds name (.length length minLength maxLength))
  else do
    let offset ← sub length minLength.toNat
    let span ← sub maxLength.toNat minLength.toNat
    offsetBits span offset

/-- The bits of the offset of a number between bounds. -/
def writeOffset (low high n : Int64) : Checked Bits := do
  let offset ← distance low n
  let span ← distance low high
  offsetBits span offset

/-- The bits of an integer between bounds. -/
def writeInt (name : String) (min max : Int64) (value : Value) : Checked Bits :=
  match value.asInt? with
  | none => refuse (Packing.mismatch name "int" value)
  | some n =>
    if n < min ∨ max < n then refuse (.outOfBounds name (.int n min max))
    else writeOffset min max n

/-- The bits of a fixed-point number between bounds. -/
def writeFixed (name : String) (min max precision : Float) (value : Value) : Checked Bits :=
  match value.asFixed? with
  | none => refuse (Packing.mismatch name "fixed" value)
  | some x =>
    let grid := Grid.ofPrecision precision
    let low := grid.stepsOf min
    let high := grid.stepsOf max
    let steps := grid.stepsOf x
    if !x.isFinite ∨ steps < low ∨ high < steps then refuse (.outOfBounds name (.fixed x min max))
    else writeOffset low high steps

/-- How a pointer is written: its own name, the name of its target, and the value. -/
abbrev WritePointer := (name target : String) → Value → Checked Bits

section

variable (follow : WritePointer)

mutual

/-- The bits of a value against a node. -/
def writeNode : Node → Value → Checked Bits
  | .bool name, value =>
    match value.asBool? with
    | some b => .ok [b]
    | none => refuse (Packing.mismatch name "bool" value)
  | .int name min max, value => writeInt name min max value
  | .fixed name min max precision, value => writeFixed name min max precision value
  | .enumeration e, value => do
    let (_, bits) ← writeOption e value
    return bits
  | .optional _ inner, value =>
    if value.isNull then .ok [false]
    else do
      let bits ← writeNode inner value
      return true :: bits
  | .array name minLength maxLength item, value =>
    match value.asArray? with
    | none => refuse (Packing.mismatch name "array" value)
    | some items => do
      let length ← writeLength name items.length minLength maxLength
      let parts ← items.mapM fun element => writeNode item element
      return length ++ parts.flatten
  | .enumArray name minLength maxLength e, value =>
    match value.asArray? with
    | none => refuse (Packing.mismatch name "array" value)
    | some items => do
      let length ← writeLength name items.length minLength maxLength
      let parts ← items.mapM fun element => writeOption e element
      return length ++ (parts.map Prod.snd).flatten
  | .object name fields, value =>
    match value.asObject? with
    | none => refuse (Packing.mismatch name "object" value)
    | some entries => writeFields fields entries
  | .union name discriminator variants, value =>
    match value.asObject? with
    | none => refuse (Packing.mismatch name "object" value)
    | some entries => do
      let (option, bits) ← writeOption discriminator (Entries.getOrNull entries discriminator.name)
      let rest ← writeVariant variants option entries
      return bits ++ rest
  | .pointer name target, value => follow name target value

/-- The bits of the entries that a list of fields names, in the order of the fields. -/
def writeFields : List Node → Entries Value → Checked Bits
  | [], _ => .ok []
  | field :: rest, entries => do
    let bits ← writeNode field (Entries.getOrNull entries field.name)
    let more ← writeFields rest entries
    return bits ++ more

/-- The bits of the fields of one variant; an option without a variant has none. -/
def writeVariant : List (String × List Node) → String → Entries Value → Checked Bits
  | [], _, _ => .ok []
  | (key, fields) :: rest, option, entries =>
    if key = option then writeFields fields entries else writeVariant rest option entries

end

end

/-- Writes a value at the target of a pointer, with `budget` pointers left to follow out of
`limit`. -/
def followWrite (scope : List Node) (limit budget : Nat) (name target : String) (value : Value) :
    Checked Bits := do
  let node ← enter scope limit budget name target
  let left ← lower budget
  writeNode (followWrite scope limit left) node value
termination_by budget
decreasing_by exact left.isLt

/-- The bits of an object against a schema's fields. -/
def writeData (fields : List Node) (data : Value) (pointerDepth : Nat) : Checked Bits :=
  match data.asObject? with
  | none => refuse (Packing.mismatch "<root>" "object" data)
  | some entries => writeFields (followWrite fields pointerDepth pointerDepth) fields entries

/-- The octets of an object against a schema's fields. -/
def packData (fields : List Node) (data : Value) (options : CodecOptions) :
    Checked (List UInt8) := do
  let bits ← writeData fields data options.pointerDepth
  return Bits.toBytes bits

/-! ### Reading -/

/-- Reads an option. -/
def readOption (e : Enumeration) (r : BitReader) : Checked (String × BitReader) := do
  let last ← sub e.options.length 1
  let (index, r) ← readBounded last r
  match e.options[index]? with
  | some option => return (option, r)
  | none => refuse (.corruptToken "" (.optionIndex index e.name e.options.length))

/-- Reads the length of an array. -/
def readLength (name : String) (minLength maxLength : UInt32) (r : BitReader) :
    Checked (Nat × BitReader) := do
  let span ← sub maxLength.toNat minLength.toNat
  let (offset, r) ← readBounded span r
  let length ← word (minLength.toNat + offset)
  if maxLength.toNat < length then refuse (.outOfBounds name (.tooLong length maxLength))
  else return (length, r)

/-- Reads the offset of a number between bounds. -/
def readOffset (name : String) (low high : Int64) (r : BitReader) :
    Checked (Int64 × BitReader) := do
  let span ← distance low high
  let (offset, r) ← readBounded span r
  if span < offset then refuse (.outOfBounds name (.offset offset))
  else do
    let n ← integer (low.toInt + offset)
    return (n, r)

/-- Reads a fixed-point number. -/
def readFixed (name : String) (min max precision : Float) (r : BitReader) :
    Checked (Float × BitReader) := do
  let grid := Grid.ofPrecision precision
  let (steps, r) ← readOffset name (grid.stepsOf min) (grid.stepsOf max) r
  return (grid.valueOf steps, r)

/-- Applies a reading function a number of times. -/
def repeated (step : BitReader → Checked (α × BitReader)) :
    Nat → BitReader → Checked (List α × BitReader)
  | 0, r => .ok ([], r)
  | n + 1, r => do
    let (a, r) ← step r
    let (items, r) ← repeated step n r
    return (a :: items, r)

/-- How a pointer is read: its own name, the name of its target, and the reader. -/
abbrev ReadPointer := (name target : String) → BitReader → Checked (Value × BitReader)

section

variable (follow : ReadPointer)

mutual

/-- Reads a value of a node. -/
def readNode : Node → BitReader → Checked (Value × BitReader)
  | .bool _, r => do
    let (bit, r) ← lift (r.read 1)
    return (.bool (bit == 1), r)
  | .int name min max, r => do
    let (n, r) ← readOffset name min max r
    return (.int n, r)
  | .fixed name min max precision, r => do
    let (x, r) ← readFixed name min max precision r
    return (.fixed x, r)
  | .enumeration e, r => do
    let (option, r) ← readOption e r
    return (.string option, r)
  | .optional _ inner, r => do
    let (present, r) ← lift (r.read 1)
    if present = 1 then readNode inner r else return (.null, r)
  | .array name minLength maxLength item, r => do
    let (length, r) ← readLength name minLength maxLength r
    let (items, r) ← repeated (fun r => readNode item r) length r
    return (.array items, r)
  | .enumArray name minLength maxLength e, r => do
    let (length, r) ← readLength name minLength maxLength r
    let (options, r) ← repeated (readOption e) length r
    return (.array (options.map .string), r)
  | .object _ fields, r => do
    let (pairs, r) ← readFields fields r
    return (.object (Entries.ofList pairs), r)
  | .union _ discriminator variants, r => do
    let (option, r) ← readOption discriminator r
    let (pairs, r) ← readVariant variants option r
    return (.object (Entries.insertAll [(discriminator.name, .string option)]
      (Entries.ofList pairs)), r)
  | .pointer name target, r => follow name target r

/-- Reads the fields of a list in order, with their names. -/
def readFields : List Node → BitReader → Checked (List (String × Value) × BitReader)
  | [], r => .ok ([], r)
  | field :: rest, r => do
    let (value, r) ← readNode field r
    let (pairs, r) ← readFields rest r
    return ((field.name, value) :: pairs, r)

/-- Reads the fields of one variant; an option without a variant has none. -/
def readVariant : List (String × List Node) → String → BitReader →
    Checked (List (String × Value) × BitReader)
  | [], _, r => .ok ([], r)
  | (key, fields) :: rest, option, r =>
    if key = option then readFields fields r else readVariant rest option r

end

end

/-- Reads a value at the target of a pointer, with `budget` pointers left to follow out of
`limit`. -/
def followRead (scope : List Node) (limit budget : Nat) (name target : String) (r : BitReader) :
    Checked (Value × BitReader) := do
  let node ← enter scope limit budget name target
  let left ← lower budget
  readNode (followRead scope limit left) node r
termination_by budget
decreasing_by exact left.isLt

/-- Reads an object of a schema's fields. -/
def readData (fields : List Node) (pointerDepth : Nat) (r : BitReader) : Checked Value := do
  let (pairs, r) ← readFields (followRead fields pointerDepth pointerDepth) fields r
  if 8 ≤ r.remaining then refuse (.corruptToken "" (.trailing r.remaining))
  else return .object (Entries.ofList pairs)

/-- The object that octets write. -/
def unpackData (fields : List Node) (bytes : List UInt8) (options : CodecOptions) :
    Checked Value :=
  readData fields options.pointerDepth (BitReader.ofBytes bytes)

end Checked

end FieldGrammar
