import FieldGrammar.Error
import FieldGrammar.Interchange.Record
import FieldGrammar.Json.Parser
import FieldGrammar.Json.Printer
import FieldGrammar.Node.Basic

/-!
# Nodes, schemas and JSON

A node is written as an object with its kind's tag under `type`, its name, and the attributes of
its kind in a fixed order.  It is read from such an object, in any order, or from an array of
the tag and the attributes.  Reading accepts invalid attributes; checking is another step.

Reading descends one level for each nested node, so it runs on the number of levels that a text
can have.

A schema is written as an object of its name and its fields.  In reading, further members are
skipped without being looked at, so they may hold literals that cannot be read and may nest as
deeply as they like; everything that is looked at nests within the bound.

## Main definitions

* `Node.toJson`, `Node.ofJson?` — the JSON value of a node, and the node that a value writes
* `Schema.toJson`, `Schema.ofJson?` — the same for schemas
-/

namespace FieldGrammar

/-! ## Nodes -/

/-- The attributes of an enumeration. -/
def Enumeration.attributes : List String := ["name", "options"]

namespace Enumeration

/-- The JSON value of an enumeration. -/
def toJson (e : Enumeration) : Json :=
  .object [("name", .string e.name), ("options", .array (e.options.map .string))]

/-- The enumeration that a record writes. -/
def ofRecord? (record : Json.Record) : Option Enumeration := do
  return ⟨← (← record "name").asString?, ← (← record "options").asStrings?⟩

/-- The enumeration that a JSON value writes. -/
def ofJson? (json : Json) : Option Enumeration := do
  ofRecord? (← json.record? attributes [])

end Enumeration

namespace Node

/-- The attributes of a kind, in the order in which they are written. -/
def attributes : Kind → List String
  | .bool => ["name"]
  | .int => ["name", "min", "max"]
  | .fixed => ["name", "min", "max", "precision"]
  | .enumeration => ["name", "options"]
  | .optional => ["name", "inner"]
  | .array => ["name", "minLength", "maxLength", "item"]
  | .enumArray => ["name", "minLength", "maxLength", "enum"]
  | .object => ["name", "fields"]
  | .union => ["name", "discriminator", "variants"]
  | .pointer => ["name", "targetName"]

/-- An object of a kind and its attributes. -/
def taggedJson (kind : Kind) (name : String) (rest : List (String × Json)) : Json :=
  .object (("type", .string kind.tag) :: ("name", .string name) :: rest)

/-- A length as a number. -/
def lengthJson (n : UInt32) : Json :=
  .int n.toNat

mutual

/-- The JSON value of a node. -/
def toJson : Node → Json
  | bool name => taggedJson .bool name []
  | int name min max =>
    taggedJson .int name [("min", .int min.toInt), ("max", .int max.toInt)]
  | fixed name min max precision =>
    taggedJson .fixed name [("min", .real min), ("max", .real max), ("precision", .real precision)]
  | enumeration e =>
    taggedJson .enumeration e.name [("options", .array (e.options.map .string))]
  | optional name inner => taggedJson .optional name [("inner", toJson inner)]
  | array name minLength maxLength item =>
    taggedJson .array name
      [("minLength", lengthJson minLength), ("maxLength", lengthJson maxLength),
        ("item", toJson item)]
  | enumArray name minLength maxLength e =>
    taggedJson .enumArray name
      [("minLength", lengthJson minLength), ("maxLength", lengthJson maxLength),
        ("enum", e.toJson)]
  | object name fields => taggedJson .object name [("fields", .array (toJsonList fields))]
  | union name discriminator variants =>
    taggedJson .union name
      [("discriminator", discriminator.toJson), ("variants", .object (toJsonVariants variants))]
  | pointer name target => taggedJson .pointer name [("targetName", .string target)]

/-- The JSON values of a list of nodes. -/
def toJsonList : List Node → List Json
  | [] => []
  | node :: rest => toJson node :: toJsonList rest

/-- The members of an object of variants, in the order in which they are stored. -/
def toJsonVariants : List (String × List Node) → List (String × Json)
  | [] => []
  | (key, fields) :: rest => (key, .array (toJsonList fields)) :: toJsonVariants rest

end

/-- The node that a JSON value writes, with a number of levels to descend. -/
def ofJson? (numbered : Bool) : (levels : Nat) → Json → Option Node
  | 0, _ => none
  | levels + 1, json => do
    let (kind, record) ← json.taggedRecord? numbered attributes
    let name ← (← record "name").asString?
    match kind with
    | .bool => return bool name
    | .int =>
      return int name (← (← record "min").asInt64?) (← (← record "max").asInt64?)
    | .fixed =>
      return fixed name (← (← record "min").asFloat?) (← (← record "max").asFloat?)
        (← (← record "precision").asFloat?)
    | .enumeration => return enumeration (← Enumeration.ofRecord? record)
    | .optional => return optional name (← ofJson? true levels (← record "inner"))
    | .array =>
      return array name (← (← record "minLength").asUInt32?) (← (← record "maxLength").asUInt32?)
        (← ofJson? true levels (← record "item"))
    | .enumArray =>
      return enumArray name (← (← record "minLength").asUInt32?)
        (← (← record "maxLength").asUInt32?) (← Enumeration.ofJson? (← record "enum"))
    | .object =>
      return object name (← (← (← record "fields").asArray?).mapM (ofJson? true levels))
    | .union =>
      let discriminator ← Enumeration.ofJson? (← record "discriminator")
      let members ← (← record "variants").asObject?
      let variants ← members.mapM fun (key, value) => do
        return (key, ← (← value.asArray?).mapM (ofJson? true levels))
      return union name discriminator (Entries.ofList variants)
    | .pointer => return pointer name (← (← record "targetName").asString?)

/-- The compact JSON text of a node. -/
def toJsonText (node : Node) : String :=
  node.toJson.toText

/-- The node that a JSON text writes. -/
def ofJsonText (text : String) : Except Error Node :=
  match Json.ofText? text with
  | none => .error (.json .malformed)
  | some json =>
    if !json.readableWithin Json.maxNesting then .error (.json .malformed)
    else match ofJson? false Json.maxNesting json with
      | some node => .ok node
      | none => .error (.json .mismatched)

end Node

/-! ## Schemas -/

namespace Schema

/-- The JSON value of a schema. -/
def toJson (schema : Schema) : Json :=
  .object [("name", .string schema.name), ("fields", .array (Node.toJsonList schema.fields))]

/-- The value of an attribute of the outermost structure, if it can be read. -/
def readableAttribute? (record : Json.Record) (name : String) : Option Json := do
  let value ← record name
  guard (value.readableWithin (Json.maxNesting - 1))
  return value

/-- The fields that a JSON value writes. -/
def fieldsOfJson? (json : Json) : Option (List Node) := do
  (← json.asArray?).mapM (Node.ofJson? false Json.maxNesting)

/-- The schema that a record writes. -/
def ofRecord? (record : Json.Record) : Option Schema := do
  let name ← (← readableAttribute? record "name").asString?
  let fields ← fieldsOfJson? (← readableAttribute? record "fields")
  return ⟨name, fields⟩

/-- The schema that a JSON value writes. -/
def ofJson? (json : Json) : Option Schema := do
  ofRecord? (← json.record? ["name", "fields"] [])

end Schema

end FieldGrammar
