import Mathlib
import FieldGrammar.Proofs.InflateLimits
import FieldGrammar.Proofs.NodeJson
import FieldGrammar.Proofs.PackedRoundTrip
import FieldGrammar.Proofs.StoredBlocks
import FieldGrammar.SchemaToken.Tagged

/-!
# Compressed tokens are decoded to what they were encoded from

A compressed token holds the JSON text of a schema.  Whatever stream the deflater has chosen for
it, decoding inflates the text and reads the schema back.  There is no bound on depth in encoding,
but the text has to fit two bounds in decoding: its size is limited, as what a token may inflate to
is, and so is the nesting of the parts of a JSON value.

## Main definitions

* `Deflater.IsLossless` — inflating undoes the deflater

## Main statements

* `Compressed.contents_tokenBy` — what is in the token of some octets
* `decodeCompressed_encodeCompressedBy` — the round trip
-/

namespace FieldGrammar

/-- Inflating gives back what has been deflated, at every level.  Which stream a deflater chooses is
its own affair, so this is all that is asked of it. -/
def Deflater.IsLossless (deflate : Deflater) : Prop :=
  ∀ level ≤ Compressed.maxLevel, ∀ bytes, inflate bytes.length (deflate level bytes) = .ok bytes

variable {deflate : Deflater} {name : String} {fields : List Node} {options : CodecOptions}

namespace Compressed

theorem isLossless_stored : Deflater.IsLossless stored :=
  fun _ _ bytes => inflate_deflateStored bytes

/-- **The octets of a token** are those that it was made of, unless they are too many.  If they are,
the token is refused as corrupt. -/
theorem contents_tokenBy (hdeflate : deflate.IsLossless) (bytes : List UInt8)
    (options : CodecOptions) :
    contents (tokenBy deflate bytes options) =
      if bytes.length ≤ maxInflated then .ok bytes
      else .error (.corruptToken (tokenBy deflate bytes options)
        (.inflate (.tooLong maxInflated))) := by
  have hinflate := inflate_of_inflate
    (hdeflate (min options.compressionLevel maxLevel) (Nat.min_le_right _ _) bytes) maxInflated
  rw [contents, tokenBy, Base64Url.decode_encode, ok_bind, compress, hinflate]
  split
  · rfl
  · rfl

/-- A token of octets that are not too many is decoded to the schema that they write. -/
theorem decodeCompressed_tokenBy (hdeflate : deflate.IsLossless) {bytes : List UInt8}
    (hfits : bytes.length ≤ maxInflated) (options : CodecOptions) :
    decodeCompressed (tokenBy deflate bytes options) =
      (schemaOf (tokenBy deflate bytes options) bytes >>= fun schema => do
        schema.validate
        schema.resolvePointers
        return schema) := by
  rw [decodeCompressed, contents_tokenBy hdeflate, if_pos hfits, ok_bind]

/-- A token of too many octets is refused. -/
theorem decodeCompressed_tokenBy_of_lt (hdeflate : deflate.IsLossless) {bytes : List UInt8}
    (hlong : maxInflated < bytes.length) (options : CodecOptions) :
    decodeCompressed (tokenBy deflate bytes options) =
      .error (.corruptToken (tokenBy deflate bytes options) (.inflate (.tooLong maxInflated))) := by
  rw [decodeCompressed, contents_tokenBy hdeflate, if_neg (Nat.not_le.2 hlong), error_bind]

/-- The octets of the text of a schema. -/
def payload (name : String) (fields : List Node) : List UInt8 :=
  Utf8.encode (Schema.toJson ⟨name, fields⟩).compact

/-- The schema is read from its text. -/
theorem schemaOf_payload (hfields : ∀ field ∈ fields, field.Writable)
    (hnesting : (Schema.toJson ⟨name, fields⟩).readableWithin Json.maxNesting = true)
    (token : String) : schemaOf token (payload name fields) = .ok ⟨name, fields⟩ := by
  have hread := Schema.ofJson?_toJson (fun field hfield => (hfields field hfield).1) hnesting
  rw [schemaOf, payload, Json.ofBytes?_compact (Schema.legible_toJson hfields)]
  dsimp only
  rw [hread]

theorem encodeCompressedBy_of_valid (hvalid : Schema.validate ⟨name, fields⟩ = .ok ()) :
    encodeCompressedBy deflate name fields options =
      .ok (tokenBy deflate (payload name fields) options) := by
  rw [encodeCompressedBy, hvalid]
  rfl

end Compressed

open Compressed

/-- **The round trip of compressed tokens.**  Every valid schema has a token.  If its pointers can
be resolved, and the numbers in its text are read back, the token is decoded to the schema, provided
that the text is not too long and nests within the bound.  The token of a longer text is refused as
corrupt.  The deflater is arbitrary, so this does not depend on which streams it writes or at which
level. -/
theorem decodeCompressed_encodeCompressedBy (hdeflate : deflate.IsLossless)
    (hvalid : Schema.validate ⟨name, fields⟩ = .ok ())
    (hresolve : Schema.resolvePointers ⟨name, fields⟩ = .ok ())
    (hnumbers : ∀ m ∈ Node.walkList fields, m.NumbersReadBack) (options : CodecOptions) :
    ∃ token, encodeCompressedBy deflate name fields options = .ok token ∧
      ((payload name fields).length ≤ maxInflated →
        (Schema.toJson ⟨name, fields⟩).readableWithin Json.maxNesting = true →
          decodeCompressed token = .ok ⟨name, fields⟩) ∧
      (maxInflated < (payload name fields).length →
        decodeCompressed token =
          .error (.corruptToken token (.inflate (.tooLong maxInflated)))) := by
  have hfields : ∀ field ∈ fields, field.Writable := fun field hfield =>
    ⟨(Schema.validate_eq_ok_iff.1 hvalid).2 field hfield, fun m hm =>
      hnumbers m (Node.mem_walkList.2 ⟨field, hfield, hm⟩)⟩
  refine ⟨_, encodeCompressedBy_of_valid hvalid, fun hfits hnesting => ?_, fun hlong => ?_⟩
  -- Encoding does not look at pointers, so only decoding needs them resolved.
  · rw [decodeCompressed_tokenBy hdeflate hfits, schemaOf_payload hfields hnesting, ok_bind, hvalid,
      ok_bind, hresolve]
    rfl
  · exact decodeCompressed_tokenBy_of_lt hdeflate hlong options

/-- The marks come back from a token without compression. -/
theorem decodeCompressed_encodeCompressedBy_marks :
    ∃ token, encodeCompressedBy stored "m" markFields { compressionLevel := 0 } = .ok token ∧
      decodeCompressed token = .ok ⟨"m", markFields⟩ := by
  have hnumbers : ∀ m ∈ Node.walkList markFields, m.NumbersReadBack := by
    have hwalk : Node.walkList markFields =
        markFields ++ [.fixed "x" 0.0 1.0 0.5, .pointer "same" "x"] := rfl
    rw [hwalk]
    refine List.forall_mem_cons.2 ⟨trivial, List.forall_mem_cons.2 ⟨⟨rfl, rfl, rfl⟩, ?_⟩⟩
    exact List.forall_mem_singleton.2 trivial
  obtain ⟨token, htoken, hdecode, -⟩ := decodeCompressed_encodeCompressedBy isLossless_stored
    (show Schema.validate ⟨"m", markFields⟩ = .ok () from eq_ok_of_toOption (by decide +kernel))
    (show Schema.resolvePointers ⟨"m", markFields⟩ = .ok () from
      eq_ok_of_toOption (by decide +kernel)) hnumbers { compressionLevel := 0 }
  exact ⟨token, htoken, hdecode (by decide +kernel) (by decide +kernel)⟩

/-! ### Texts beyond the bounds -/

/-- A text is no shorter than what it writes if it writes every part. -/
theorem length_le_length_flatMap {α β : Type} {write : α → List β} (h : ∀ a, 0 < (write a).length)
    (xs : List α) : xs.length ≤ (xs.flatMap write).length := by
  induction xs with
  | nil => exact le_rfl
  | cons a rest ih =>
      have ha := h a
      rw [List.flatMap_cons, List.length_append, List.length_cons]
      omega

theorem Json.length_escape_pos (c : Char) : 0 < (escape c).length := by
  rw [escape.eq_def]
  split
  all_goals try split
  all_goals exact Nat.zero_lt_succ _

/-- The text of a schema is longer than its name, so a name alone can make a text that is too long.
-/
theorem Compressed.length_lt_length_payload (name : String) (fields : List Node) :
    name.toList.length < (payload name fields).length := by
  have hname : name.toList.length ≤ (name.toList.flatMap Json.escape).length :=
    length_le_length_flatMap Json.length_escape_pos name.toList
  have htext : (Schema.toJson ⟨name, fields⟩).compact.length ≤ (payload name fields).length :=
    length_le_length_flatMap (fun c => by
      rw [String.length_utf8EncodeChar]
      exact c.utf8Size_pos) _
  have hquoted : (name.toList.flatMap Json.escape).length <
      (Schema.toJson ⟨name, fields⟩).compact.length := by
    rw [Schema.toJson, Json.compact, Json.compactMembers, Json.compact]
    · simp only [Json.quote, List.length_cons, List.length_append]
      omega
    · simp
  exact hname.trans_lt (hquoted.trans_le htext)

/-- Optional nodes inside one another, each of which nests one level of JSON further. -/
def nestedOptionals : (count : Nat) → Node
  | 0 => .bool "on"
  | count + 1 => .optional "maybe" (nestedOptionals count)

theorem writable_nestedOptionals (count : Nat) : (nestedOptionals count).Writable := by
  induction count with
  | zero =>
      exact ⟨Node.valid_iff.2 ⟨rfl, nofun⟩, (Node.forall_mem_walk_leaf_iff rfl).2 trivial⟩
  | succ count ih =>
      refine ⟨Node.valid_optional_iff.2 ih.1, Node.forall_mem_walk_iff.2 ⟨trivial, ?_⟩⟩
      exact List.forall_mem_singleton.2 ih.2

/-- Each optional node adds a fixed number of characters. -/
theorem length_compact_nestedOptionals (count : Nat) :
    (nestedOptionals count).toJson.compact.length = 27 + 43 * count := by
  induction count with
  | zero => decide +kernel
  | succ count ih =>
      have hkeys : (Json.quote "type").length = 6 ∧ (Json.quote "optional").length = 10 ∧
          (Json.quote "name").length = 6 ∧ (Json.quote "maybe").length = 7 ∧
            (Json.quote "inner").length = 7 := by decide +kernel
      rw [nestedOptionals, Node.toJson, Node.taggedJson, Json.compact, Json.compactMembers,
        Json.compactMembers, Json.compactMembers, Json.compact, Json.compact, Kind.tag]
      · simp only [List.length_cons, List.length_append, hkeys, ih, List.length_nil]
        omega
      all_goals simp

/-- A character takes four octets at most. -/
theorem length_encode_le (chars : List Char) : (Utf8.encode chars).length ≤ 4 * chars.length := by
  induction chars with
  | nil => exact le_rfl
  | cons c rest ih =>
      have hc : (String.utf8EncodeChar c).length ≤ 4 := by
        rw [String.length_utf8EncodeChar]
        exact c.utf8Size_le_four
      rw [Utf8.encode] at ih ⊢
      rw [List.flatMap_cons, List.length_append, List.length_cons]
      omega

theorem length_payload_nestedOptionals (count : Nat) :
    (payload "nested" [nestedOptionals count]).length ≤ 4 * (56 + 43 * count) := by
  have hkeys : (Json.quote "name").length = 6 ∧ (Json.quote "nested").length = 8 ∧
      (Json.quote "fields").length = 8 := by decide +kernel
  have htext : (Schema.toJson ⟨"nested", [nestedOptionals count]⟩).compact.length ≤
      56 + 43 * count := by
    rw [Schema.toJson, Json.compact, Json.compactMembers, Json.compactMembers, Json.compact,
      Json.compact, Node.toJsonList, Node.toJsonList, Json.compactItems]
    · simp only [List.length_cons, List.length_append, hkeys, length_compact_nestedOptionals,
        List.length_nil]
      omega
    · simp
  exact (length_encode_le _).trans (Nat.mul_le_mul_left 4 htext)

/-- The schema is valid and its pointers can be resolved, and yet its token is refused.  So what
refuses it is a bound of the decoder and no fault of the schema. -/
def IsRefused (schema : Schema) (fault : TokenFault) : Prop :=
  schema.validate = .ok () ∧ schema.resolvePointers = .ok () ∧
    ∃ token, encodeCompressed schema.name schema.fields {} = .ok token ∧
      decodeCompressed token = .error (.corruptToken token fault)

/-- A schema is refused whose name alone has as many characters as a token may inflate to octets,
and so is one that nests too deeply. -/
theorem isRefused_longName_and_nestedOptionals :
    IsRefused ⟨String.ofList (List.replicate maxInflated 'a'), []⟩
        (.inflate (.tooLong maxInflated)) ∧
      IsRefused ⟨"nested", [nestedOptionals 125]⟩ (.json .mismatched) := by
  -- Neither token is computed: it is enough how long the texts are and what they write.
  refine ⟨⟨rfl, rfl, ?_⟩, ?_⟩
  · have hlong := length_lt_length_payload (String.ofList (List.replicate maxInflated 'a')) []
    rw [String.toList_ofList, List.length_replicate] at hlong
    exact ⟨_, encodeCompressedBy_of_valid rfl,
      decodeCompressed_tokenBy_of_lt isLossless_stored hlong {}⟩
  · have hvalid : Schema.validate ⟨"nested", [nestedOptionals 125]⟩ = .ok () :=
      eq_ok_of_toOption (by decide +kernel)
    have hfits : (payload "nested" [nestedOptionals 125]).length ≤ maxInflated :=
      (length_payload_nestedOptionals 125).trans (by decide)
    have hread : Schema.ofJson? (Schema.toJson ⟨"nested", [nestedOptionals 125]⟩) = none :=
      Option.isNone_iff_eq_none.1 (by decide +kernel)
    have hlegible : (Schema.toJson ⟨"nested", [nestedOptionals 125]⟩).Legible :=
      Schema.legible_toJson (List.forall_mem_singleton.2 (writable_nestedOptionals 125))
    refine ⟨hvalid, eq_ok_of_toOption (by decide +kernel), _,
      encodeCompressedBy_of_valid hvalid, ?_⟩
    rw [decodeCompressed_tokenBy isLossless_stored hfits, schemaOf, payload,
      Json.ofBytes?_compact hlegible]
    dsimp only
    rw [hread]
    rfl

end FieldGrammar
