import FieldGrammar.Draft.Basic
import FieldGrammar.Node.Basic

/-!
# Drafts and nodes

`Draft.toNode` fills the unset attributes of a draft from fallbacks and `Draft.ofNode` makes a
draft in which every attribute is set.  Neither direction checks anything: bounds that exclude
each other come through as they are and are refused when the node is used.

A union gets one variant for each option and no other, in the order of the options.

The draft of a node gets identifiers from a supply, `Draft.bare` is the same draft with empty ones.

## Main definitions

* `Fallbacks` — what stands in for unset attributes; nothing else knows it
* `Draft.toNode` — the node that a draft describes
* `Draft.ofNode` — the draft of a node, in which every attribute is set
-/

namespace FieldGrammar

/-! ## Fallback attributes -/

/-- The attributes of a node whose draft leaves them unset. -/
structure Fallbacks where
  intMin : Int64 := 0
  intMax : Int64 := 100
  fixedMin : Float := 0.0
  fixedMax : Float := 100.0
  precision : Float := 0.1
  options : List String := ["option1", "option2"]
  minLength : UInt32 := 0
  maxLength : UInt32 := 10
  enumArrayName : String := "value"
  discriminatorName : String := "type"
  pointerTarget : String := ""

namespace Fallbacks

/-- The fallbacks with other bounds of integers. -/
def withIntBounds (fallbacks : Fallbacks) (min max : Int64) : Fallbacks :=
  { fallbacks with intMin := min, intMax := max }

/-- The fallbacks with other attributes of fixed-point numbers. -/
def withFixed (fallbacks : Fallbacks) (min max precision : Float) : Fallbacks :=
  { fallbacks with fixedMin := min, fixedMax := max, precision := precision }

/-- The fallbacks with other options of enumerations. -/
def withOptions (fallbacks : Fallbacks) (options : List String) : Fallbacks :=
  { fallbacks with options := options }

/-- The fallbacks with other bounds of lengths. -/
def withLengths (fallbacks : Fallbacks) (minLength maxLength : UInt32) : Fallbacks :=
  { fallbacks with minLength := minLength, maxLength := maxLength }

/-- What an optional field holds. -/
def optionalInner (_ : Fallbacks) : Node :=
  .bool "value"

/-- What an array holds. -/
def arrayItem (fallbacks : Fallbacks) : Node :=
  .int "item" fallbacks.intMin fallbacks.intMax

/-- An enumeration of the fallback options. -/
def enumeration (fallbacks : Fallbacks) (name : String) : Enumeration :=
  ⟨name, fallbacks.options⟩

end Fallbacks

/-! ## Conversions -/

namespace Draft

section

variable (fallbacks : Fallbacks)

/-- The enumeration of a name and options, either of which may be unset. -/
def enumerationOf (name : String) (options : Option (List String)) : Enumeration :=
  ⟨name, options.getD fallbacks.options⟩

mutual

/-- The node that a draft describes. -/
def toNode : Draft → Node
  | bool _ name => .bool name
  | int _ name min max => .int name (min.getD fallbacks.intMin) (max.getD fallbacks.intMax)
  | fixed _ name min max precision =>
    .fixed name (min.getD fallbacks.fixedMin) (max.getD fallbacks.fixedMax)
      (precision.getD fallbacks.precision)
  | enumeration _ name options => .enumeration (enumerationOf fallbacks name options)
  | optional _ name none => .optional name fallbacks.optionalInner
  | optional _ name (some inner) => .optional name (toNode inner)
  | array _ name minLength maxLength none =>
    .array name (minLength.getD fallbacks.minLength) (maxLength.getD fallbacks.maxLength)
      fallbacks.arrayItem
  | array _ name minLength maxLength (some item) =>
    .array name (minLength.getD fallbacks.minLength) (maxLength.getD fallbacks.maxLength)
      (toNode item)
  | enumArray _ name minLength maxLength enumName options =>
    .enumArray name (minLength.getD fallbacks.minLength) (maxLength.getD fallbacks.maxLength)
      (enumerationOf fallbacks (enumName.getD fallbacks.enumArrayName) options)
  | object _ name fields => .object name (toNodes fields)
  | union _ name discriminatorName options variants =>
    let discriminator :=
      enumerationOf fallbacks (discriminatorName.getD fallbacks.discriminatorName) options
    .union name discriminator (Entries.ofList
      (discriminator.options.map fun option => (option, toNodesAt variants option)))
  | pointer _ name target => .pointer name (target.getD fallbacks.pointerTarget)

/-- The nodes that a list of drafts describes. -/
def toNodes : List Draft → List Node
  | [] => []
  | draft :: rest => toNode draft :: toNodes rest

/-- The fields of the variant of an option, none if there is no such variant. -/
def toNodesAt : List (String × List Draft) → String → List Node
  | [], _ => []
  | (key, fields) :: rest, option => if key = option then toNodes fields else toNodesAt rest option

end

end

mutual

/-- The draft of a node, with empty identifiers. -/
def bare : Node → Draft
  | .bool name => bool "" name
  | .int name min max => int "" name (some min) (some max)
  | .fixed name min max precision => fixed "" name (some min) (some max) (some precision)
  | .enumeration e => enumeration "" e.name (some e.options)
  | .optional name inner => optional "" name (some (bare inner))
  | .array name minLength maxLength item =>
    array "" name (some minLength) (some maxLength) (some (bare item))
  | .enumArray name minLength maxLength e =>
    enumArray "" name (some minLength) (some maxLength) (some e.name) (some e.options)
  | .object name fields => object "" name (bareList fields)
  | .union name discriminator variants =>
    union "" name (some discriminator.name) (some discriminator.options) (Entries.ofList
      (discriminator.options.map fun option => (option, bareAt variants option)))
  | .pointer name target => pointer "" name (some target)

/-- The drafts of a list of nodes. -/
def bareList : List Node → List Draft
  | [] => []
  | node :: rest => bare node :: bareList rest

/-- The drafts of the fields of a variant. -/
def bareAt : List (String × List Node) → String → List Draft
  | [], _ => []
  | (key, fields) :: rest, option => if key = option then bareList fields else bareAt rest option

end

section

variable (supply : Nat → String)

mutual

/-- Draws the draft of a node: the drafts of what it nests come first, then its own identifier. -/
def drawNode : Node → Drawing Draft
  | .bool name => do
    return bool (← draw supply) name
  | .int name min max => do
    return int (← draw supply) name (some min) (some max)
  | .fixed name min max precision => do
    return fixed (← draw supply) name (some min) (some max) (some precision)
  | .enumeration e => do
    return enumeration (← draw supply) e.name (some e.options)
  | .optional name inner => do
    let inner ← drawNode inner
    return optional (← draw supply) name (some inner)
  | .array name minLength maxLength item => do
    let item ← drawNode item
    return array (← draw supply) name (some minLength) (some maxLength) (some item)
  | .enumArray name minLength maxLength e => do
    return enumArray (← draw supply) name (some minLength) (some maxLength) (some e.name)
      (some e.options)
  | .object name fields => do
    let fields ← drawNodes fields
    return object (← draw supply) name fields
  | .union name discriminator variants => do
    let pairs ← discriminator.options.mapM fun option => do
      return (option, ← drawNodesAt variants option)
    return union (← draw supply) name (some discriminator.name) (some discriminator.options)
      (Entries.ofList pairs)
  | .pointer name target => do
    return pointer (← draw supply) name (some target)

/-- Draws the drafts of a list of nodes, in order. -/
def drawNodes : List Node → Drawing (List Draft)
  | [] => return []
  | node :: rest => do
    let first ← drawNode node
    let more ← drawNodes rest
    return first :: more

/-- Draws the drafts of the fields of a variant. -/
def drawNodesAt : List (String × List Node) → String → Drawing (List Draft)
  | [], _ => return []
  | (key, fields) :: rest, option =>
    if key = option then drawNodes fields else drawNodesAt rest option

end

end

/-- The draft of a node with identifiers from a supply. -/
def ofNode (supply : Nat → String) (node : Node) : Draft :=
  (drawNode supply node 0).1

end Draft

end FieldGrammar
