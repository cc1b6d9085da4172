import Mathlib
import FieldGrammar.Proofs.Encodable
import FieldGrammar.Proofs.SymbolTexts
import FieldGrammar.Proofs.ReadBack
import FieldGrammar.Proofs.Readers

/-!
# Cut and extended tokens

Neither octets nor tokens carry their length.  They do not need to: a reader never looks beyond
the bits that it asks for, so that on a longer bit string it reads the same and leaves more
behind, and on a shorter one it reads the same until it runs out of bits (`Online`).  Data may
leave fewer than eight bits behind.  An octet more is therefore always trailing, and an octet
less always leaves a read without its bits.  Fewer symbols of a token hold fewer octets, so that
a cut token is corrupt.

## Main definitions

* `BitReader.followedBy` — the same position in a longer bit string
* `Online` — a reader that does not look beyond the bits that it asks for

## Main statements

* `online_readFields` — the fields of a schema are read in this way
* `corruptToken_of_append_or_isPrefix` — cut and extended octets are refused, and so are cut tokens
-/

namespace FieldGrammar

/-! ### Readers and longer bit strings -/

/-- The same position with more bits behind. -/
def BitReader.followedBy (r : BitReader) (more : Bits) : BitReader :=
  ⟨r.offset, r.rest ++ more⟩

/-- A read has found fewer bits than it asked for.  The numbers in the error depend on the place,
and nothing is said of them. -/
def RanOut {α : Type} (x : Except Error α) : Prop :=
  ∃ needed offset, x = .error (.corruptToken "" (.endOfData needed offset))

/-- A computation that has run out of bits is out of bits whatever comes behind. -/
theorem RanOut.bind {α β : Type} {x : Except Error α} (h : RanOut x) (f : α → Except Error β) :
    RanOut (x >>= f) := by
  obtain ⟨needed, offset, rfl⟩ := h
  exact ⟨needed, offset, rfl⟩

/-- With more bits behind the same is read, unless the bits do not suffice.  Both directions of
truncation follow from this one property. -/
def Online {α : Type} (step : Reader α) : Prop :=
  ∀ (r : BitReader) (more : Bits), RanOut (step r) ∨
    step (r.followedBy more) = (step r).map fun found => (found.1, found.2.followedBy more)

/-- Reading a number of bits looks at these bits only. -/
theorem online_read (n : Nat) : Online fun r => r.read n := by
  intro r more
  dsimp only
  rw [BitReader.read, BitReader.read]
  cases hsplit : Bits.splitAt? n r.rest with
  | none => exact .inl ⟨n, r.offset, rfl⟩
  | some found =>
      -- What splits off in front does so with more bits behind.
      obtain ⟨hrest, hlength⟩ := Bits.splitAt?_eq_some_iff.1 hsplit
      have hmore : Bits.splitAt? n (r.followedBy more).rest = some (found.1, found.2 ++ more) :=
        Bits.splitAt?_eq_some_iff.2
          ⟨by rw [BitReader.followedBy, hrest, List.append_assoc], hlength⟩
      rw [hmore]
      exact .inr rfl

/-- One reader after another does not look ahead if neither does. -/
theorem Online.bind {α β : Type} {step : Reader α}
    {next : α × BitReader → Except Error (β × BitReader)} (hstep : Online step)
    (hnext : ∀ a, Returns step a → Online fun r => next (a, r)) :
    Online fun r => step r >>= next := by
  intro r more
  dsimp only
  rcases hstep r more with hout | hsame
  · exact .inl (hout.bind next)
  · rw [hsame]
    cases hfound : step r with
    | error e => exact .inr rfl
    | ok found => exact hnext found.1 ⟨r, found.2, hfound⟩ found.2 more

/-- Readers inherit that they do not look ahead. -/
theorem inherited_online : Inherited Online where
  read := online_read
  ok _ _ _ := .inr rfl
  bind := Online.bind
  refuse _ _ _ := .inr rfl

/-- The fields of a schema are read without looking ahead. -/
theorem online_readFields (fields : List Node) (limit : Nat) :
    Online (Packing.readFields (Packing.followRead fields limit limit) fields) :=
  inherited_online.readFields_followRead (fun _ _ _ _ _ _ => .inr rfl) fun _ _ _ _ _ => .inr rfl

/-! ### Octets -/

variable {fields : List Node} {options : CodecOptions}

theorem BitReader.ofBytes_append (bytes more : List UInt8) :
    ofBytes (bytes ++ more) = (ofBytes bytes).followedBy (Bits.ofBytes more) := by
  rw [followedBy, ofBytes, ofBytes, Bits.ofBytes, List.flatMap_append]
  rfl

/-- Octets behind add eight bits each to what remains.  This is what makes a trailing octet visible,
since fewer than eight bits may remain. -/
theorem BitReader.remaining_followedBy (r : BitReader) (bytes : List UInt8) :
    (r.followedBy (Bits.ofBytes bytes)).remaining = r.remaining + 8 * bytes.length := by
  rw [followedBy, remaining, remaining, List.length_append, Bits.length_ofBytes]

/-- **Octets behind accepted ones are trailing.**  The same fields are read, and eight bits or more
are left. -/
theorem unpackData_append {bytes more : List UInt8} {data : Value}
    (h : unpackData fields bytes options = .ok data) (hmore : more ≠ []) :
    ∃ left, unpackData fields (bytes ++ more) options =
      .error (.corruptToken "" (.trailing left)) := by
  obtain ⟨pairs, r', hread, -, -⟩ := Packing.readData_eq_ok_iff.1 h
  have hpos := List.length_pos_iff.2 hmore
  rcases online_readFields fields options.pointerDepth (BitReader.ofBytes bytes)
    (Bits.ofBytes more) with ⟨needed, offset, hout⟩ | hlonger
  · rw [hread] at hout
    cases hout
  · -- The fields end where they did, and now a whole octet is behind them.
    refine ⟨(r'.followedBy (Bits.ofBytes more)).remaining, ?_⟩
    rw [unpackData, Packing.readData, BitReader.ofBytes_append, hlonger, hread]
    simp only [Except.map, ok_bind]
    rw [if_pos (by rw [BitReader.remaining_followedBy]; omega)]

/-- **Octets missing from accepted ones are missed.**  If the shorter octets were enough, the longer
ones would leave eight bits or more. -/
theorem ranOut_unpackData {bytes more : List UInt8} {data : Value}
    (h : unpackData fields (bytes ++ more) options = .ok data) (hmore : more ≠ []) :
    RanOut (unpackData fields bytes options) := by
  obtain ⟨pairs, r', hread, hrest, -⟩ := Packing.readData_eq_ok_iff.1 h
  have hpos := List.length_pos_iff.2 hmore
  rcases online_readFields fields options.pointerDepth (BitReader.ofBytes bytes)
    (Bits.ofBytes more) with hout | hlonger
  · exact hout.bind _
  · -- If the bits did suffice, the longer string would have an octet left over.
    rw [← BitReader.ofBytes_append, hread] at hlonger
    cases hfields : Packing.readFields
        (Packing.followRead fields options.pointerDepth options.pointerDepth) fields
        (BitReader.ofBytes bytes) with
    | error e =>
        rw [hfields] at hlonger
        cases hlonger
    | ok found =>
        rw [hfields] at hlonger
        cases hlonger
        rw [BitReader.remaining_followedBy] at hrest
        omega

/-! ### Tokens -/

/-- **A cut data token has run out of bits.**  A written token has no symbol to spare, so that fewer
symbols hold fewer octets. -/
theorem decodeData_of_isPrefix {bytes : List UInt8} {data : Value} {cut : String}
    (h : unpackData fields bytes options = .ok data)
    (hcut : cut.toList <+: (Base64Url.encode bytes).toList) (hne : cut ≠ Base64Url.encode bytes) :
    ∃ needed offset, decodeData fields cut options =
      .error (.corruptToken cut (.endOfData needed offset)) := by
  obtain ⟨n, hn, hdecode⟩ := Base64Url.decode_of_isPrefix hcut hne
  rw [← List.take_append_drop n bytes] at h
  have hrest : bytes.drop n ≠ [] := by
    rw [ne_eq, List.drop_eq_nil_iff]
    omega
  obtain ⟨needed, offset, hout⟩ := ranOut_unpackData h hrest
  refine ⟨needed, offset, ?_⟩
  rw [decodeData, hdecode, ok_bind, hout]
  rfl

/-- **Truncation and extension are detected.**  Octets that a schema accepts are not accepted with
octets behind them, nor with octets missing at the end.  A data token or schema token that was cut
anywhere is refused as a corrupt token, with the text that was left of it.  For schema tokens this
is the case of data tokens of the meta-schema, and the schema that was encoded does not enter into
it. -/
theorem corruptToken_of_append_or_isPrefix (name : String) (fields : List Node)
    (options : CodecOptions) :
    (Schema.validate ⟨name, fields⟩ = .ok () →
      (∀ bytes more data, unpackData fields bytes options = .ok data → more ≠ [] →
        ∃ left, unpackData fields (bytes ++ more) options =
          .error (.corruptToken "" (.trailing left))) ∧
      (∀ bytes more data, unpackData fields (bytes ++ more) options = .ok data → more ≠ [] →
        ∃ needed offset, unpackData fields bytes options =
          .error (.corruptToken "" (.endOfData needed offset))) ∧
      ∀ data token cut, encodeData fields data options = .ok token →
        cut.toList <+: token.toList → cut ≠ token →
          ∃ needed offset, decodeData fields cut options =
            .error (.corruptToken cut (.endOfData needed offset))) ∧
    ∀ token cut, encodePacked name fields options = .ok token →
      cut.toList <+: token.toList → cut ≠ token →
        ∃ needed offset, decodePacked cut options =
          .error (.corruptToken cut (.endOfData needed offset)) := by
  constructor
  · intro hvalid
    obtain ⟨hnames, hfields⟩ := Schema.validate_eq_ok_iff.1 hvalid
    refine ⟨fun _ _ _ => unpackData_append, fun _ _ _ => ranOut_unpackData, ?_⟩
    intro data token cut htoken hcut hne
    obtain ⟨bytes, hbytes, hencode⟩ := bind_eq_ok_iff.1 htoken
    cases hencode
    obtain ⟨bits, hbits, htoBytes⟩ := bind_eq_ok_iff.1 hbytes
    cases htoBytes
    exact decodeData_of_isPrefix (Packing.unpackData_toBytes hnames hfields hbits) hcut hne
  · -- A schema token is a data token of the meta-schema, which is valid at every depth.
    intro token cut htoken hcut hne
    obtain ⟨⟨-, hsupported, -⟩, bits, hbits, rfl⟩ := encodePacked_eq_ok_iff.1 htoken
    obtain ⟨hnames, hfields⟩ := Schema.validate_eq_ok_iff.1
      (MetaSchema.validate_fields name options.maxDepth)
    obtain ⟨needed, offset, hdecode⟩ := decodeData_of_isPrefix
      (Packing.unpackData_toBytes hnames hfields hbits) hcut hne
    refine ⟨needed, offset, ?_⟩
    rw [decodePacked, MetaSchema.ofDepth_eq_ok_iff.2 ⟨hsupported, rfl⟩, ok_bind, hdecode,
      error_bind]

/-- A number of ten bits. -/
def counterFields : List Node :=
  [.int "count" 0 1000]

/-- One octet too many, one too few, a data token without its last symbol, and a schema token
without its last. -/
theorem corruptToken_of_append_or_isPrefix_counter :
    (∃ left, unpackData counterFields [1, 64, 0] {} = .error (.corruptToken "" (.trailing left))) ∧
    (∃ needed offset, unpackData counterFields [1] {} =
      .error (.corruptToken "" (.endOfData needed offset))) ∧
    (∃ needed offset, decodeData counterFields "AU" {} =
      .error (.corruptToken "AU" (.endOfData needed offset))) ∧
    ∃ needed offset, decodePacked "AQEgAwAAAAEAAAfQAA7GPsbe6tz" { maxDepth := 1 } =
      .error (.corruptToken "AQEgAwAAAAEAAAfQAA7GPsbe6tz" (.endOfData needed offset)) := by
  have hvalid : Schema.validate ⟨"c", counterFields⟩ = .ok () := rfl
  have hdata : unpackData counterFields [1, 64] {} = .ok (.object [("count", .int 5)]) := rfl
  have htoken : encodeData counterFields (.object [("count", .int 5)]) {} = .ok "AUA" :=
    eq_ok_of_toOption (by decide +kernel)
  have hschema : encodePacked "c" counterFields { maxDepth := 1 } =
      .ok "AQEgAwAAAAEAAAfQAA7GPsbe6tzo" := eq_ok_of_toOption (by decide +kernel)
  obtain ⟨hextended, hcut, htokens⟩ :=
    (corruptToken_of_append_or_isPrefix "c" counterFields {}).1 hvalid
  refine ⟨hextended [1, 64] [0] _ hdata (by decide), hcut [1] [64] _ hdata (by decide),
    htokens _ _ "AU" htoken (by decide) (by decide), ?_⟩
  exact (corruptToken_of_append_or_isPrefix "c" counterFields { maxDepth := 1 }).2 _ _ hschema
    (by decide) (by decide)

end FieldGrammar
