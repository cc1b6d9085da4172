import FieldGrammar.Base64Url
import FieldGrammar.Deflate
import FieldGrammar.Interchange.Node
import FieldGrammar.Node.Check
import FieldGrammar.Node.Scope
import FieldGrammar.Packing.DataToken
import FieldGrammar.SchemaToken.Describe
import FieldGrammar.SchemaToken.Rebuild

/-!
# Schema tokens

A schema token writes a schema in one of two formats.  A *packed* token is the description of the
schema as data of the meta-schema, packed; it is short, and bounded in depth.  A *compressed* token
is the JSON text of the schema in a deflate stream.  A *tagged* token is one of the two with a
character in front that says which.

## Main definitions

* `encodePacked`, `decodePacked` — packed tokens
* `encodeCompressed`, `decodeCompressed` — compressed tokens
* `encodeTagged`, `decodeTagged` — tagged tokens
-/

namespace FieldGrammar

/-!
## Packed schema tokens

A schema is validated, described as data of the meta-schema and packed; decoding unpacks the
description, rebuilds the schema, validates it and resolves its pointers.  A token is decoded
with the depth bound it was encoded with.
-/

/-- Refuses the first field that is deeper than the bound. -/
def checkDepths (maxDepth : Nat) : List Node → Except Error Unit
  | [] => .ok ()
  | field :: rest =>
    if maxDepth < field.depth then .error (.depthExceeded field.name field.depth maxDepth)
    else checkDepths maxDepth rest

/-- The packed token of a schema. -/
def encodePacked (name : String) (fields : List Node) (options : CodecOptions) :
    Except Error String := do
  Schema.validate ⟨name, fields⟩
  let layout ← MetaSchema.ofDepth options.maxDepth
  checkDepths options.maxDepth fields
  let (data, _) ← Describe.schema name fields
  encodeData layout data options

/-- Reports an invalid schema in a token as corruption of the token. -/
def Error.asInvalidSchema (token : String) : Error → Error
  | .construction field fault => .corruptToken token (.schema field fault)
  | other => .corruptToken token (.note other.text)

/-- The schema that a packed token writes. -/
def decodePacked (token : String) (options : CodecOptions) : Except Error Schema := do
  let layout ← MetaSchema.ofDepth options.maxDepth
  let data ← decodeData layout token options
  let schema ← (Rebuild.schema data).mapError (Error.inToken token)
  schema.validate.mapError (Error.asInvalidSchema token)
  schema.resolvePointers
  return schema

/-!
## Compressed schema tokens

A schema as JSON text in a deflate stream.  Tokens carry no version and know no bound on depth;
what bounds them is the size of the text that a token may inflate to, and the nesting that JSON
text may have.

Any deflate stream is accepted in reading.  There are many streams of the same octets, and which
of them is written at which level is up to a `Deflater`; the one at hand writes stored blocks at
every level.
-/

/-- A choice of a deflate stream for some octets, at a level from 0 to 9. -/
abbrev Deflater := (level : Nat) → List UInt8 → List UInt8

namespace Compressed

/-- The most octets that a token may inflate to. -/
def maxInflated : Nat := 4 * 1024 * 1024

/-- The highest level; what is beyond counts as the highest. -/
def maxLevel : Nat := 9

/-- Stored blocks at every level. -/
def stored : Deflater := fun _ bytes => deflateStored bytes

/-- A deflate stream of some octets. -/
def compress (deflate : Deflater) (bytes : List UInt8) (level : Nat) : List UInt8 :=
  deflate (min level maxLevel) bytes

/-- The octets of a deflate stream. -/
def decompress (bytes : List UInt8) : Except Error (List UInt8) :=
  (inflate maxInflated bytes).mapError .compression

/-- The token of some octets under a deflater. -/
def tokenBy (deflate : Deflater) (bytes : List UInt8) (options : CodecOptions) : String :=
  Base64Url.encode (compress deflate bytes options.compressionLevel)

/-- The token of some octets. -/
def tokenOf (bytes : List UInt8) (options : CodecOptions) : String :=
  tokenBy stored bytes options

/-- The octets in a token. -/
def contents (token : String) : Except Error (List UInt8) := do
  let bytes ← Base64Url.decode token
  (inflate maxInflated bytes).mapError fun fault => .corruptToken token (.inflate fault)

/-- The schema that the octets in a token write. -/
def schemaOf (token : String) (bytes : List UInt8) : Except Error Schema :=
  match Json.ofBytes? bytes with
  | none => .error (.corruptToken token (.json .malformed))
  | some json =>
    match Schema.ofJson? json with
    | none => .error (.corruptToken token (.json .mismatched))
    | some schema => .ok schema

end Compressed

/-- The compressed token of a schema under a deflater. -/
def encodeCompressedBy (deflate : Deflater) (name : String) (fields : List Node)
    (options : CodecOptions) : Except Error String := do
  let schema : Schema := ⟨name, fields⟩
  schema.validate
  return Compressed.tokenBy deflate (Utf8.encode schema.toJson.compact) options

/-- The compressed token of a schema. -/
def encodeCompressed (name : String) (fields : List Node) (options : CodecOptions) :
    Except Error String :=
  encodeCompressedBy Compressed.stored name fields options

/-- The schema that a compressed token writes. -/
def decodeCompressed (token : String) : Except Error Schema := do
  let bytes ← Compressed.contents token
  let schema ← Compressed.schemaOf token bytes
  schema.validate
  schema.resolvePointers
  return schema

/-!
## Tagged schema tokens

One character in front of a schema token says which of the two formats it is in, so that it can
be decoded without further knowledge.  Errors about the token behind the marker echo the whole
tagged token.
-/

/-- The token of a schema in a format, with the format's marker in front. -/
def encodeTagged (format : Format) (name : String) (fields : List Node)
    (options : CodecOptions) : Except Error String := do
  let body ← match format with
    | .packed => encodePacked name fields options
    | .compressed => encodeCompressed name fields options
  return String.ofList (format.marker :: body.toList)

/-- The format that a tagged token announces, and the token behind the marker. -/
def splitTagged? (token : String) : Option (Format × String) :=
  match token.toList with
  | [] => none
  | c :: body => (Format.ofMarker? c).map fun format => (format, String.ofList body)

/-- The schema that a tagged token writes. -/
def decodeTagged (token : String) (options : CodecOptions) : Except Error Schema :=
  match splitTagged? token with
  | none => .error (.corruptToken token .marker)
  | some (format, body) =>
    let result := match format with
      | .packed => decodePacked body options
      | .compressed => decodeCompressed body
    result.mapError (Error.echoing token)

end FieldGrammar
