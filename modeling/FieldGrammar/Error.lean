import FieldGrammar.Decimal.Layout
import FieldGrammar.Data.Display
import FieldGrammar.Text.Utf8

/-!
# Errors

Every operation that can fail returns one of the errors of `Error`.  Nothing is retried.

* **Construction** — a node carries invalid attributes
* **Unresolved pointer** — a pointer names a field that the schema does not have
* **Depth** — a node tree, or the following of pointers, goes deeper than its bound
* **Corrupt token** — a token that cannot be decoded, echoed for diagnosis
* **Compression** — a deflate stream, outside of a token
* **Out of bounds**, **invalid data** — data that does not fit its field
* **String table**, **JSON**, **input and output**, **message** — the rest

An error names where it happened and carries a *fault*, which says what was wrong there.  There is
one type of faults for each place where something can be refused, with the wording of each fault
beside it; no other module composes messages.  Every type of faults except `JsonFault` ends in a
constructor for a wording that a caller supplies.

* `NodeFault` — the attributes of a node
* `BoundFault` — data outside the bounds that its field declares
* `ShapeFault` — data of another shape than its field declares
* `TableFault` — the string table
* `InflateFault` — a deflate stream
* `JsonFault` — JSON text
* `TokenFault` — a token, including everything above that can come to light in one

`Error.inToken` is what turns an error met while a token is read into one about that token:
structural failures become corrupt tokens, and semantic ones keep their kind.
-/

namespace FieldGrammar

/-! ## Faults -/

/-- Why the attributes of a node are refused. -/
inductive NodeFault where
  | noOptions
  | repeatedOption (option : String)
  | intBounds (min max : Int64)
  | fixedBounds (min max : Float)
  | notFinite
  | precision
  | lengthBounds (min max : UInt32)
  | repeatedField (name : String)
  | strayVariant (key : String)
  | variantsDiffer
  | note (text : String)

/-- Why a data value is out of bounds. -/
inductive BoundFault where
  | int (value min max : Int64)
  | fixed (value min max : Float)
  | option (given : String) (options : List String)
  | length (length : Nat) (min max : UInt32)
  | offset (offset : Nat)
  | tooLong (length : Nat) (max : UInt32)
  | depth (asked supported : Nat)
  | resolution (value step : Float)
  | note (text : String)

/-- Why a data value has the wrong shape. -/
inductive ShapeFault where
  | mismatch (expected found : String)
  | note (text : String)

/-- Why a string table refuses an operation. -/
inductive TableFault where
  | separator (entry : String)
  | index (index size : Nat)
  | repeated (entry : String)
  | encoding (fault : Utf8.Fault)
  | note (text : String)

/-- Why octets are no deflate stream, or too long a one. -/
inductive InflateFault where
  | endOfStream
  | blockType
  | storedLength
  | codeLengths
  | symbol
  | distance
  | tooLong (limit : Nat)
  | note (text : String)

/-- Why a text is refused where JSON is expected. -/
inductive JsonFault where
  | malformed
  | mismatched

/-- Why a token is corrupt. -/
inductive TokenFault where
  | character (c : Char) (position : Nat)
  | endOfData (needed offset : Nat)
  | trailing (bits : Nat)
  | optionIndex (index : Nat) (name : String) (options : Nat)
  | missing (key : String)
  | unknownKind (tag : String)
  | variantCount (name : String) (variants options : Nat)
  | version (found expected : Int)
  | marker
  | bound (field : String) (fault : BoundFault)
  | shape (field : String) (fault : ShapeFault)
  | table (fault : TableFault)
  | schema (field : String) (fault : NodeFault)
  | inflate (fault : InflateFault)
  | json (fault : JsonFault)
  | note (text : String)

/-! ### Wording -/

/-- The wording of a refused node. -/
def NodeFault.text : NodeFault → String
  | .noOptions => "enumeration needs at least one option"
  | .repeatedOption option => s!"duplicate option `{option}`"
  | .intBounds min max => s!"min {min.toInt} exceeds max {max.toInt}"
  | .fixedBounds min max =>
    s!"min {NumberStyle.plain.text min} exceeds max {NumberStyle.plain.text max}"
  | .notFinite => "bounds must be finite"
  | .precision => "precision must be positive"
  | .lengthBounds min max => s!"minLength {min.toNat} exceeds maxLength {max.toNat}"
  | .repeatedField name => s!"duplicate field name `{name}`"
  | .strayVariant key => s!"variant `{key}` is not a discriminator option"
  | .variantsDiffer => "every discriminator option needs exactly one variant"
  | .note text => text

/-- The wording of data out of bounds. -/
def BoundFault.text : BoundFault → String
  | .int value min max => s!"{value.toInt} is outside {min.toInt}..={max.toInt}"
  | .fixed value min max =>
    s!"{NumberStyle.plain.text value} is outside " ++
      s!"{NumberStyle.plain.text min}..={NumberStyle.plain.text max}"
  | .option given options => s!"`{given}` is not one of {quoteStrings options}"
  | .length count min max => s!"length {count} is outside {min.toNat}..={max.toNat}"
  | .offset amount => s!"offset {amount} exceeds range"
  | .tooLong count max => s!"length {count} exceeds maxLength {max.toNat}"
  | .depth asked supported => s!"{asked} exceeds the largest supported depth of {supported}"
  | .resolution value step =>
    s!"{NumberStyle.debug.text value} is not a multiple of {NumberStyle.plain.text step} " ++
      "and would not decode to the same value"
  | .note text => text

/-- The wording of data of the wrong shape. -/
def ShapeFault.text : ShapeFault → String
  | .mismatch expected found => s!"expected {expected}, found {found}"
  | .note text => text

/-- The wording of a refused table operation. -/
def TableFault.text : TableFault → String
  | .separator entry => s!"`{escapeBare entry}` contains the reserved separator U+001F"
  | .index position size => s!"index {position} is outside the string table ({size} entries)"
  | .repeated entry => s!"duplicate table entry `{entry}`"
  | .encoding fault => s!"table is not UTF-8: {fault.text}"
  | .note text => text

/-- The wording of an undecodable stream. -/
def InflateFault.text : InflateFault → String
  | .endOfStream => "unexpected end of the deflate stream"
  | .blockType => "invalid block type"
  | .storedLength => "invalid stored block length"
  | .codeLengths => "invalid code lengths"
  | .symbol => "invalid symbol"
  | .distance => "invalid distance"
  | .tooLong limit => s!"inflated data exceeds {limit} bytes"
  | .note text => text

/-- The wording of refused JSON text. -/
def JsonFault.text : JsonFault → String
  | .malformed => "malformed text"
  | .mismatched => "text of an unexpected form"

/-- The wording of a corrupt token. -/
def TokenFault.text : TokenFault → String
  | .character c position => s!"invalid character {quoteChar c} at position {position}"
  | .endOfData needed offset =>
    s!"unexpected end of data: needed {needed} bits at offset {offset}"
  | .trailing bits => s!"{bits} trailing bits after the last field"
  | .optionIndex index name options =>
    s!"unknown option index {index} for `{name}` ({options} options)"
  | .missing key => s!"missing `{key}` in node payload"
  | .unknownKind tag => s!"unknown node kind `{tag}`"
  | .variantCount name variants options =>
    s!"union `{name}` has {variants} variants for {options} options"
  | .version found expected => s!"unsupported version {found} (expected {expected})"
  | .marker => "missing or unknown format marker"
  | .bound field fault => s!"`{field}`: {fault.text}"
  | .shape field fault => s!"`{field}`: {fault.text}"
  | .table fault => fault.text
  | .schema field fault => s!"Invalid field `{field}`: {fault.text}"
  | .inflate fault => s!"Compression error: {fault.text}"
  | .json fault => fault.text
  | .note text => text

/-! ## Errors -/

/-- A failure of building, encoding or decoding. -/
inductive Error where
  | construction (field : String) (fault : NodeFault)
  | unresolvedPointer (field target : String)
  | depthExceeded (field : String) (depth maxDepth : Nat)
  | corruptToken (token : String) (fault : TokenFault)
  | compression (fault : InflateFault)
  | outOfBounds (field : String) (fault : BoundFault)
  | invalidData (field : String) (fault : ShapeFault)
  | stringTable (fault : TableFault)
  | json (fault : JsonFault)
  | io (text : String)
  | message (text : String)

namespace Error

/-- The text of an error. -/
def text : Error → String
  | .construction field fault => s!"Invalid field `{field}`: {fault.text}"
  | .unresolvedPointer field target => s!"Pointer `{field}` refers to unknown field `{target}`"
  | .depthExceeded field depth maxDepth =>
    s!"Field `{field}` has depth {depth}, exceeding the configured maximum depth of {maxDepth}"
  | .corruptToken token fault => s!"Corrupt token: {fault.text}\nToken: {token}"
  | .compression fault => s!"Compression error: {fault.text}"
  | .outOfBounds field fault => s!"Value for `{field}` is out of bounds: {fault.text}"
  | .invalidData field fault => s!"Invalid data for `{field}`: {fault.text}"
  | .stringTable fault => s!"String table error: {fault.text}"
  | .json fault => s!"JSON error: {fault.text}"
  | .io text => s!"IO error: {text}"
  | .message text => text

/-- Attaches a token to an error met while reading it.  Truncated streams, bad indices, bound
violations and the like become corrupt tokens; unresolved pointers, invalid nodes and depth
errors stay what they are. -/
def inToken (token : String) : Error → Error
  | .corruptToken _ fault => corruptToken token fault
  | .outOfBounds field fault => corruptToken token (.bound field fault)
  | .invalidData field fault => corruptToken token (.shape field fault)
  | .stringTable fault => corruptToken token (.table fault)
  | .json fault => corruptToken token (.json fault)
  | .message text => corruptToken token (.note text)
  | other => other

/-- Replaces the token that a corrupt-token error echoes. -/
def echoing (token : String) : Error → Error
  | .corruptToken _ fault => corruptToken token fault
  | other => other

end Error

end FieldGrammar
