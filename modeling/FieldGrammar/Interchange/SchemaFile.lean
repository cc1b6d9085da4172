import FieldGrammar.Interchange.Node
import FieldGrammar.Node.Check
import FieldGrammar.Node.Scope

/-!
# Schema files

A schema as it is stored on disk: its name, its fields and the version of the file format, as
JSON text laid out over lines.  Unknown members are ignored, a missing version is the current
one, and a file is validated and its pointers resolved before it is returned.
-/

namespace FieldGrammar

/-- A schema as stored on disk. -/
structure SchemaFile where
  name : String
  fields : List Node
  version : String

namespace SchemaFile

/-- The version that new files carry. -/
def currentVersion : String := "1"

/-- The file of a schema. -/
def ofSchema (schema : Schema) : SchemaFile :=
  ⟨schema.name, schema.fields, currentVersion⟩

/-- The schema in a file. -/
def schema (file : SchemaFile) : Schema :=
  ⟨file.name, file.fields⟩

/-- The JSON value of a file. -/
def toJson (file : SchemaFile) : Json :=
  .object [("name", .string file.name), ("fields", .array (Node.toJsonList file.fields)),
    ("version", .string file.version)]

/-- The text of a file. -/
def toText (file : SchemaFile) : String :=
  file.toJson.toPrettyText

/-- The octets of a file. -/
def toBytes (file : SchemaFile) : List UInt8 :=
  Utf8.encode (file.toJson.pretty 0)

/-- The file that a JSON value writes, unchecked. -/
def ofJson? (json : Json) : Option SchemaFile := do
  let record ← json.record? ["name", "fields"] ["version"]
  let schema ← Schema.ofRecord? record
  match record "version" with
  | none => return ⟨schema.name, schema.fields, currentVersion⟩
  | some (.string version) => return ⟨schema.name, schema.fields, version⟩
  | some _ => none

/-- Tests the schema in a file and its pointers. -/
def check (file : SchemaFile) : Except Error Unit := do
  file.schema.validate
  file.schema.resolvePointers

/-- The checked file that a JSON value, if it is one, writes. -/
def accept : Option Json → Except Error SchemaFile
  | none => .error (.json .malformed)
  | some json =>
    match ofJson? json with
    | none => .error (.json .mismatched)
    | some file => do
      file.check
      return file

/-- Reads a file from text. -/
def ofText (text : String) : Except Error SchemaFile :=
  accept (Json.ofText? text)

/-- Reads a file from octets. -/
def ofBytes (bytes : List UInt8) : Except Error SchemaFile :=
  accept (Json.ofBytes? bytes)

end SchemaFile

end FieldGrammar
