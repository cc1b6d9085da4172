import FieldGrammar.Data.Value
import FieldGrammar.Error
import FieldGrammar.Packing.Range
import FieldGrammar.SchemaToken.MetaSchema
import FieldGrammar.SchemaToken.StringTable

/-!
# Describing a schema as data

A schema becomes an object of the meta-schema.  Names and options are interned on the way, in
the order in which a pre-order walk meets them: a node's own name, then the name of its
enumeration or discriminator where it has a separate one, then its options or its pointer
target, then its children.  The schema's name is always entry 0.

Fixed-point attributes travel on a grid of their own; one that the grid does not reproduce is
refused, since it would come back changed.
-/

namespace FieldGrammar

/-- Computations that may add to the string table. -/
abbrev Interning := StateT StringTable (Except Error)

namespace Describe

/-- A string as its index. -/
def index (s : String) : Interning Value := fun table =>
  match table.intern s with
  | .ok (i, table) => .ok (.int (Int64.ofInt i), table)
  | .error fault => .error (.stringTable fault)

/-- The options of an enumeration as indices. -/
def options (e : Enumeration) : Interning Value := do
  let indices ← e.options.mapM index
  return .array indices

/-- A fixed-point attribute, if the grid of tokens reproduces it. -/
def fixedAttribute (field : String) (x : Float) : Except Error Value :=
  let grid := Grid.ofPrecision MetaSchema.resolution
  if grid.valueOf (grid.stepsOf x) == x then .ok (.fixed x)
  else .error (.outOfBounds field (.resolution x MetaSchema.resolution))

/-- A length as a value. -/
def length (n : UInt32) : Value :=
  .int (Int64.ofInt n.toNat)

/-- The description of a kind with a name and further attributes. -/
def object (kind : Kind) (name : Value) (rest : List (String × Value)) : Value :=
  .object (("kind", .string kind.tag) :: ("name", name) :: rest)

mutual

/-- The description of a node. -/
def node : Node → Interning Value
  | .bool name => do
    return object .bool (← index name) []
  | .int name min max => do
    return object .int (← index name) [("min", .int min), ("max", .int max)]
  | .fixed name min max precision => do
    let i ← index name
    let lo ← fixedAttribute name min
    let hi ← fixedAttribute name max
    let step ← fixedAttribute name precision
    return object .fixed i [("min", lo), ("max", hi), ("precision", step)]
  | .enumeration e => do
    let i ← index e.name
    return object .enumeration i [("options", ← options e)]
  | .optional name inner => do
    let i ← index name
    return object .optional i [("inner", ← node inner)]
  | .array name minLength maxLength item => do
    let i ← index name
    return object .array i
      [("minLength", length minLength), ("maxLength", length maxLength), ("item", ← node item)]
  | .enumArray name minLength maxLength e => do
    let i ← index name
    let enumName ← index e.name
    return object .enumArray i
      [("minLength", length minLength), ("maxLength", length maxLength),
        ("enumName", enumName), ("options", ← options e)]
  | .object name fields => do
    let i ← index name
    return object .object i [("fields", .array (← nodes fields))]
  | .union name discriminator variants => do
    let i ← index name
    let discriminatorName ← index discriminator.name
    let indices ← options discriminator
    let lists ← discriminator.options.mapM fun option => variant variants option
    return object .union i
      [("discriminatorName", discriminatorName), ("options", indices),
        ("variants", .array lists)]
  | .pointer name target => do
    let i ← index name
    return object .pointer i [("targetName", ← index target)]

/-- The descriptions of a list of nodes. -/
def nodes : List Node → Interning (List Value)
  | [] => return []
  | field :: rest => do
    let first ← node field
    let more ← nodes rest
    return first :: more

/-- The description of the fields of a variant; an option without a variant has none. -/
def variant : List (String × List Node) → String → Interning Value
  | [], _ => return .array []
  | (key, fields) :: rest, option =>
    if key = option then return .array (← nodes fields) else variant rest option

end

/-- The top level of the description, and the string table that goes with it. -/
def schema (name : String) (fields : List Node) : Except Error (Value × StringTable) := do
  let (_, table) ← (index name).run StringTable.empty
  let (described, table) ← (nodes fields).run table
  let bytes := table.toBytes.map fun byte => Value.int (Int64.ofInt byte.toNat)
  let data := Value.object
    [ ("meta", .object [("version", .int MetaSchema.version)]),
      ("fields", .array described),
      ("strings", .array bytes) ]
  return (data, table)

end Describe

/-- The string table that the token of a schema carries. -/
def stringTableOf (name : String) (fields : List Node) : Except Error StringTable := do
  let (_, table) ← Describe.schema name fields
  return table

end FieldGrammar
