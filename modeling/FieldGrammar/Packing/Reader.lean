import FieldGrammar.Bits.Reader
import FieldGrammar.Data.Value
import FieldGrammar.Node.Scope
import FieldGrammar.Packing.Range

/-!
# Reading data

The inverse of writing: each kind of node consumes exactly the bits that writing it produces.
Bits that no value writes are refused: an offset beyond the range, an index without an option, a
length beyond the maximum.

As in writing, `Packing.readNode` descends through a node and `Packing.followRead` follows
pointers within a budget.
-/

namespace FieldGrammar

namespace Packing

/-- Reads an option. -/
def readOption (e : Enumeration) (r : BitReader) : Except Error (String × BitReader) := do
  let (index, r) ← r.read (Bits.width (lastIndex e.options.length))
  match e.options[index]? with
  | some option => return (option, r)
  | none => .error (.corruptToken "" (.optionIndex index e.name e.options.length))

/-- Reads the length of an array. -/
def readLength (name : String) (minLength maxLength : UInt32) (r : BitReader) :
    Except Error (Nat × BitReader) := do
  let (offset, r) ← r.read (Bits.width (lengthSpan minLength maxLength))
  let length := minLength.toNat + offset
  if maxLength.toNat < length then .error (.outOfBounds name (.tooLong length maxLength))
  else return (length, r)

/-- Reads the offset of a number between bounds. -/
def readOffset (name : String) (low high : Int64) (r : BitReader) :
    Except Error (Int64 × BitReader) := do
  let (offset, r) ← r.read (Bits.width (distance low high))
  if distance low high < offset then .error (.outOfBounds name (.offset offset))
  else return (advance low offset, r)

/-- Reads a fixed-point number. -/
def readFixed (name : String) (min max precision : Float) (r : BitReader) :
    Except Error (Float × BitReader) := do
  let grid := Grid.ofPrecision precision
  let (steps, r) ← readOffset name (grid.stepsOf min) (grid.stepsOf max) r
  return (grid.valueOf steps, r)

/-- How a pointer is read: its own name, the name of its target, and the reader. -/
abbrev ReadPointer := (name target : String) → BitReader → Except Error (Value × BitReader)

section

variable (follow : ReadPointer)

mutual

/-- Reads a value of a node. -/
def readNode : Node → BitReader → Except Error (Value × BitReader)
  | .bool _, r => do
    let (bit, r) ← r.read 1
    return (.bool (bit == 1), r)
  | .int name min max, r => do
    let (n, r) ← readOffset name min max r
    return (.int n, r)
  | .fixed name min max precision, r => do
    let (x, r) ← readFixed name min max precision r
    return (.fixed x, r)
  | .enumeration e, r => do
    let (option, r) ← readOption e r
    return (.string option, r)
  | .optional _ inner, r => do
    let (present, r) ← r.read 1
    if present = 1 then readNode inner r else return (.null, r)
  | .array name minLength maxLength item, r => do
    let (length, r) ← readLength name minLength maxLength r
    let (items, r) ← BitReader.repeated (fun r => readNode item r) length r
    return (.array items, r)
  | .enumArray name minLength maxLength e, r => do
    let (length, r) ← readLength name minLength maxLength r
    let (options, r) ← BitReader.repeated (readOption e) length r
    return (.array (options.map .string), r)
  | .object _ fields, r => do
    let (pairs, r) ← readFields fields r
    return (.object (Entries.ofList pairs), r)
  | .union _ discriminator variants, r => do
    let (option, r) ← readOption discriminator r
    let (pairs, r) ← readVariant variants option r
    return (.object (Entries.insertAll [(discriminator.name, .string option)]
      (Entries.ofList pairs)), r)
  | .pointer name target, r => follow name target r

/-- Reads the fields of a list in order, with their names. -/
def readFields : List Node → BitReader → Except Error (List (String × Value) × BitReader)
  | [], r => .ok ([], r)
  | field :: rest, r => do
    let (value, r) ← readNode field r
    let (pairs, r) ← readFields rest r
    return ((field.name, value) :: pairs, r)

/-- Reads the fields of one variant; an option without a variant has none. -/
def readVariant : List (String × List Node) → String → BitReader →
    Except Error (List (String × Value) × BitReader)
  | [], _, r => .ok ([], r)
  | (key, fields) :: rest, option, r =>
    if key = option then readFields fields r else readVariant rest option r

end

/-- A pointer is read as it is followed. -/
theorem readNode_pointer (name target : String) (r : BitReader) :
    readNode follow (.pointer name target) r = follow name target r := by
  rw [readNode]

end

/-- Reads a value at the target of a pointer, with `budget` pointers left to follow out of
`limit`.  A missing target is reported before an exhausted budget. -/
def followRead (scope : List Node) (limit : Nat) : (budget : Nat) → ReadPointer
  | 0, name, target, _ =>
    match resolveTarget scope target with
    | none => .error (.unresolvedPointer name target)
    | some _ => .error (.depthExceeded name (limit + 1) limit)
  | budget + 1, name, target, r =>
    match resolveTarget scope target with
    | none => .error (.unresolvedPointer name target)
    | some node => readNode (followRead scope limit budget) node r

/-- Reads an object of a schema's fields.  Eight or more bits after the last field are
refused. -/
def readData (fields : List Node) (pointerDepth : Nat) (r : BitReader) : Except Error Value := do
  let (pairs, r) ← readFields (followRead fields pointerDepth pointerDepth) fields r
  if 8 ≤ r.remaining then .error (.corruptToken "" (.trailing r.remaining))
  else return .object (Entries.ofList pairs)

end Packing

end FieldGrammar
