import FieldGrammar.Base64Url
import FieldGrammar.Bits.Basic
import FieldGrammar.Packing.Reader
import FieldGrammar.Packing.Writer

/-!
# Data tokens

Data packed against a schema's fields, as octets (`packData`, `unpackData`) and as text
(`encodeData`, `decodeData`).  The shape is not written: a token is decoded with the fields and
the pointer bound that it was encoded with.

## Main definitions

* `CodecOptions` — the bounds on depth and the compression level
* `Format` — which of the two formats of schema tokens is meant, and its marker character
* `packData`, `unpackData`, `encodeData`, `decodeData`, `validateData`
-/

namespace FieldGrammar

/-! ## Options of the codecs -/

/-- Bounds and levels that the codecs work with. -/
structure CodecOptions where
  /-- The number of levels of nesting that packed schema tokens can describe. -/
  maxDepth : Nat := 5
  /-- How many pointers may be followed inside one another. -/
  pointerDepth : Nat := 5
  /-- How hard the compressed format tries, from 0 to 9. -/
  compressionLevel : Nat := 6
  deriving DecidableEq, Repr

namespace CodecOptions

/-- The same options with another bound on nesting. -/
def withMaxDepth (options : CodecOptions) (depth : Nat) : CodecOptions :=
  { options with maxDepth := depth }

/-- The same options with another bound on following pointers. -/
def withPointerDepth (options : CodecOptions) (depth : Nat) : CodecOptions :=
  { options with pointerDepth := depth }

/-- The same options with another level, at most 9. -/
def withCompressionLevel (options : CodecOptions) (level : Nat) : CodecOptions :=
  { options with compressionLevel := min level 9 }

end CodecOptions

/-- The two token formats. -/
inductive Format where
  | packed
  | compressed
  deriving DecidableEq, Repr

namespace Format

/-- The character in front of a tagged token. -/
def marker : Format → Char
  | packed => 'b'
  | compressed => 'z'

/-- The format that a marker stands for. -/
def ofMarker? : Char → Option Format
  | 'b' => some packed
  | 'z' => some compressed
  | _ => none

/-- A format is recognised by its marker. -/
@[simp] theorem ofMarker?_marker (format : Format) : ofMarker? format.marker = some format := by
  cases format <;> rfl

end Format

/-! ## Data against fields -/

/-- The octets of an object against a schema's fields, the last one filled up with zero
bits. -/
def packData (fields : List Node) (data : Value) (options : CodecOptions) :
    Except Error (List UInt8) := do
  let bits ← Packing.writeData fields data options.pointerDepth
  return Bits.toBytes bits

/-- The object that octets write.  Whole octets left over are refused. -/
def unpackData (fields : List Node) (bytes : List UInt8) (options : CodecOptions) :
    Except Error Value :=
  Packing.readData fields options.pointerDepth (BitReader.ofBytes bytes)

/-- The token of an object against a schema's fields. -/
def encodeData (fields : List Node) (data : Value) (options : CodecOptions) :
    Except Error String := do
  let bytes ← packData fields data options
  return Base64Url.encode bytes

/-- The object that a token writes.  Structural failures are reported as corruption of the
token. -/
def decodeData (fields : List Node) (token : String) (options : CodecOptions) :
    Except Error Value :=
  let result := do
    let bytes ← Base64Url.decode token
    unpackData fields bytes options
  result.mapError (Error.inToken token)

/-- Whether an object fits a schema's fields. -/
def validateData (fields : List Node) (data : Value) (options : CodecOptions) :
    Except Error Unit := do
  let _ ← packData fields data options
  return ()

end FieldGrammar
