import FieldGrammar.Data.Value
import FieldGrammar.Error
import FieldGrammar.Node.Basic
import FieldGrammar.SchemaToken.MetaSchema
import FieldGrammar.SchemaToken.StringTable

/-!
# Rebuilding a schema from its description

The inverse of describing: names and options are looked up in the string table that the
description carries.  The description has been read against the meta-schema, so its keys and
their kinds are as expected; what can still be wrong is the version, the table, an index outside
of it, or a union with another number of variants than options.

Keys are looked up where they stand (`Rebuild.nodeAt` and its companions), which keeps the
recursion on the description structural.
-/

namespace FieldGrammar

namespace Rebuild

/-- The error of a key that is absent or of the wrong kind. -/
def missing (key : String) : Error :=
  .corruptToken "" (.missing key)

/-- The value if there is one, and an error about its key otherwise. -/
def require {α : Type} (key : String) : Option α → Except Error α
  | some a => .ok a
  | none => .error (missing key)

/-- The integer under a key. -/
def intAt (entries : Entries Value) (key : String) : Except Error Int64 :=
  require key ((Entries.get? entries key).bind Value.asInt?)

/-- The number under a key. -/
def fixedAt (entries : Entries Value) (key : String) : Except Error Float :=
  require key ((Entries.get? entries key).bind Value.asFixed?)

/-- The list under a key. -/
def listAt (entries : Entries Value) (key : String) : Except Error (List Value) :=
  require key ((Entries.get? entries key).bind Value.asArray?)

/-- The length under a key. -/
def lengthAt (entries : Entries Value) (key : String) : Except Error UInt32 := do
  let n ← intAt entries key
  if 0 ≤ n.toInt ∧ n.toInt < UInt32.size then return UInt32.ofNat n.toInt.toNat
  else .error (missing key)

/-- The string that a value is the index of. -/
def string (table : StringTable) (value : Value) : Except Error String :=
  match value.asInt? with
  | some n =>
    if 0 ≤ n.toInt then
      match table.entry n.toInt.toNat with
      | .ok s => .ok s
      | .error fault => .error (.stringTable fault)
    else .error (missing "string index")
  | none => .error (missing "string index")

/-- The string whose index stands under a key. -/
def stringAt (table : StringTable) (entries : Entries Value) (key : String) :
    Except Error String := do
  string table (← require key (Entries.get? entries key))

/-- The enumeration of a name and of the options whose indices stand under their key. -/
def enumeration (table : StringTable) (name : String) (entries : Entries Value) :
    Except Error Enumeration := do
  let indices ← listAt entries "options"
  let options ← indices.mapM (string table)
  return ⟨name, options⟩

/-- The kind that an object describes. -/
def kindAt (entries : Entries Value) : Except Error Kind := do
  let value ← require MetaSchema.kindName (Entries.get? entries MetaSchema.kindName)
  let tag ← require MetaSchema.kindName value.asString?
  match Kind.ofTag? tag with
  | some kind => return kind
  | none => .error (.corruptToken "" (.unknownKind tag))

section

variable (table : StringTable)

mutual

/-- The node that a value describes. -/
def node : Value → Except Error Node
  | .object entries => do
    let kind ← kindAt entries
    let name ← stringAt table entries "name"
    match kind with
    | .bool => return .bool name
    | .int => return .int name (← intAt entries "min") (← intAt entries "max")
    | .fixed =>
      return .fixed name (← fixedAt entries "min") (← fixedAt entries "max")
        (← fixedAt entries "precision")
    | .enumeration => return .enumeration (← enumeration table name entries)
    | .optional => return .optional name (← nodeAt entries "inner")
    | .array =>
      return .array name (← lengthAt entries "minLength") (← lengthAt entries "maxLength")
        (← nodeAt entries "item")
    | .enumArray =>
      let enumName ← stringAt table entries "enumName"
      return .enumArray name (← lengthAt entries "minLength") (← lengthAt entries "maxLength")
        (← enumeration table enumName entries)
    | .object => return .object name (← nodesAt entries "fields")
    | .union =>
      let discriminatorName ← stringAt table entries "discriminatorName"
      let discriminator ← enumeration table discriminatorName entries
      let lists ← listAt entries "variants"
      if lists.length ≠ discriminator.options.length then
        .error (.corruptToken ""
          (.variantCount name lists.length discriminator.options.length))
      else
        let variants ← variantsAt entries "variants"
        return .union name discriminator
          (Entries.ofList (discriminator.options.zip variants))
    | .pointer => return .pointer name (← stringAt table entries "targetName")
  | _ => .error (missing "node")

/-- The node that the value under a key describes. -/
def nodeAt : List (String × Value) → String → Except Error Node
  | [], key => .error (missing key)
  | (k, value) :: rest, key => if k = key then node value else nodeAt rest key

/-- The nodes that the items of a list describe. -/
def nodes : List Value → Except Error (List Node)
  | [] => .ok []
  | value :: rest => do
    let first ← node value
    let more ← nodes rest
    return first :: more

/-- The nodes that the items of the list under a key describe. -/
def nodesAt : List (String × Value) → String → Except Error (List Node)
  | [], key => .error (missing key)
  | (k, value) :: rest, key =>
    if k = key then
      match value with
      | .array items => nodes items
      | _ => .error (missing key)
    else nodesAt rest key

/-- The lists of nodes that the items of a list of lists describe. -/
def variants : List Value → Except Error (List (List Node))
  | [] => .ok []
  | .array items :: rest => do
    let first ← nodes items
    let more ← variants rest
    return first :: more
  | _ :: _ => .error (missing "variant")

/-- The lists of nodes that the list of lists under a key describes. -/
def variantsAt : List (String × Value) → String → Except Error (List (List Node))
  | [], key => .error (missing key)
  | (k, value) :: rest, key =>
    if k = key then
      match value with
      | .array lists => variants lists
      | _ => .error (missing key)
    else variantsAt rest key

end

end

/-- The octet that a value is. -/
def octet (value : Value) : Except Error UInt8 :=
  match value.asInt? with
  | some n =>
    if 0 ≤ n.toInt ∧ n.toInt < 256 then .ok (UInt8.ofNat n.toInt.toNat)
    else .error (missing "string byte")
  | none => .error (missing "string byte")

/-- The string table that a list of octets writes. -/
def tableOf (values : List Value) : Except Error StringTable := do
  let bytes ← values.mapM octet
  match StringTable.ofBytes bytes with
  | .ok table => return table
  | .error fault => .error (.stringTable fault)

/-- The schema that an object of the meta-schema describes. -/
def schema (data : Value) : Except Error Schema := do
  let root ← require "root" data.asObject?
  let header ← require "meta" ((Entries.get? root "meta").bind Value.asObject?)
  let version ← intAt header "version"
  if version ≠ MetaSchema.version then
    .error (.corruptToken "" (.version version.toInt MetaSchema.version.toInt))
  else
    let table ← tableOf (← listAt root "strings")
    match table.entry 0 with
    | .error fault => .error (.stringTable fault)
    | .ok name =>
      let fields ← nodesAt table root "fields"
      return ⟨name, fields⟩

end Rebuild

end FieldGrammar
