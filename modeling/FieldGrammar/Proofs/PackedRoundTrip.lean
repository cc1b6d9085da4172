import Mathlib
import FieldGrammar.Proofs.Encodable
import FieldGrammar.Proofs.PointerTargets
import FieldGrammar.Proofs.SymbolTexts
import FieldGrammar.Proofs.ReadBack
import FieldGrammar.Proofs.Rebuilding

/-!
# Packed tokens are decoded to what they were encoded from

Decoding a packed token undoes each stage of encoding: the text is read back to the octets, the
octets to the description in normal form, and the description is rebuilt to the restored schema.
That schema is valid and the same as the original one.  What is not undone is a defect that
encoding does not look at: pointers are resolved in decoding only, so the token of a schema with
a dangling pointer is refused, with the error that the schema itself gives.

## Main statements

* `decodePacked_of_encodePacked` — a token is decoded to the restored schema
* `decodePacked_encodePacked` — the round trip
-/

namespace FieldGrammar

variable {name : String} {fields : List Node} {options : CodecOptions} {token : String}

/-- **A token is decoded to the restored schema**, if its pointers can be resolved.  Describing,
packing, unpacking and rebuilding have each been shown to lead there; this puts them in a row. -/
theorem decodePacked_of_encodePacked (h : encodePacked name fields options = .ok token) :
    decodePacked token options =
      (Schema.resolvePointers ⟨name, fields⟩ >>= fun _ =>
        .ok ⟨name, fields.map Node.restored⟩) := by
  have hencodable := encodable_of_encodePacked h
  obtain ⟨⟨hvalid, hsupported, hdepth, hseparator, hgrid⟩, bits, hbits, rfl⟩ :=
    encodePacked_eq_ok_iff.1 h
  obtain ⟨hnames, hfields⟩ := Schema.validate_eq_ok_iff.1 hvalid
  obtain ⟨hlayoutNames, hlayout⟩ := Schema.validate_eq_ok_iff.1
    (MetaSchema.validate_fields name options.maxDepth)
  have hofDepth : MetaSchema.ofDepth options.maxDepth =
      .ok (MetaSchema.fields options.maxDepth) := MetaSchema.ofDepth_eq_ok_iff.2 ⟨hsupported, rfl⟩
  have hdata : decodeData (MetaSchema.fields options.maxDepth)
      (Base64Url.encode (Bits.toBytes bits)) options =
        .ok (Describe.ofSchema (Describe.tableOf name fields) (fields.map Node.restored)) := by
    rw [decodeData, Base64Url.decode_encode]
    refine mapError_eq_ok_iff.2 ?_
    rw [ok_bind, Packing.unpackData_toBytes hlayoutNames hlayout hbits,
      MetaSchema.normalData_ofSchema hdepth]
  have hschema := Rebuild.schema_ofSchema hfields hseparator hencodable.strings
  have hrestored : Schema.validate ⟨name, fields.map Node.restored⟩ = .ok () := by
    refine Schema.validate_eq_ok_iff.2 ⟨?_, List.forall_mem_map.2 fun field hfield => ?_⟩
    · rw [Node.inPlace_restored.names_map]
      exact hnames
    · exact Node.valid_restored (hfields field hfield) fun m hm =>
        hgrid m (Node.mem_walkList.2 ⟨field, hfield, hm⟩)
  rw [decodePacked, hofDepth, ok_bind, hdata, ok_bind, mapError_eq_ok_iff.2 hschema, ok_bind,
    mapError_eq_ok_iff.2 hrestored, ok_bind, Node.inPlace_restored.resolvePointers_map]
  rfl

/-- A restored schema is the same as the schema. -/
theorem same_restored_schema (hvalid : ∀ field ∈ fields, field.Valid)
    (hgrid : ∀ m ∈ Node.walkList fields, m.OnGrid) :
    Schema.same ⟨name, fields.map Node.restored⟩ ⟨name, fields⟩ = true := by
  have hfields : Node.sameList (fields.map Node.restored) fields = true :=
    Node.sameList_map fun field hfield => Node.same_restored (hvalid field hfield) fun m hm =>
      hgrid m (Node.mem_walkList.2 ⟨field, hfield, hm⟩)
  rw [Schema.same, hfields, beq_self_eq_true, Bool.and_self]

/-- The only error of resolving pointers is one about a pointer without a target. -/
theorem eq_unresolvedPointer_of_resolvePointers {schema : Schema} {e : Error}
    (h : schema.resolvePointers = .error e) :
    ∃ field target, e = .unresolvedPointer field target := by
  obtain ⟨field, target, -, heq⟩ := Schema.resolvePointers_eq_error_iff.1 h
  exact ⟨field, target, heq⟩

/-- **The round trip of packed tokens.**  A schema whose pointers can be resolved comes back; the
token of any other schema is refused with the error that resolving the schema's pointers gives.
Encoding does not look at pointers, which is why such tokens exist.  What comes back is the restored
schema, and comparison does not see what restoring changes. -/
theorem decodePacked_encodePacked (h : encodePacked name fields options = .ok token) :
    (Schema.resolvePointers ⟨name, fields⟩ = .ok () →
      ∃ schema, decodePacked token options = .ok schema ∧
        Schema.same schema ⟨name, fields⟩ = true) ∧
    ∀ e, Schema.resolvePointers ⟨name, fields⟩ = .error e →
      decodePacked token options = .error e ∧
        ∃ field target, e = .unresolvedPointer field target := by
  have hdecode := decodePacked_of_encodePacked h
  obtain ⟨⟨hvalid, -, -, -, hgrid⟩, -⟩ := encodePacked_eq_ok_iff.1 h
  constructor
  · intro hresolve
    rw [hresolve, ok_bind] at hdecode
    exact ⟨_, hdecode, same_restored_schema (Schema.validate_eq_ok_iff.1 hvalid).2 hgrid⟩
  · intro e hresolve
    rw [hresolve, error_bind] at hdecode
    exact ⟨hdecode, eq_unresolvedPointer_of_resolvePointers hresolve⟩

/-- A mark that says where it is, or which number it shares.  Its variants are stored in another
order than its options. -/
def markFields : List Node :=
  [.union "mark" ⟨"kind", ["at", "as"]⟩
    [("as", [.pointer "same" "x"]), ("at", [.fixed "x" 0.0 1.0 0.5])]]

/-- A link to a mark that the schema does not have. -/
def linkFields : List Node :=
  [.optional "next" (.pointer "link" "mark")]

theorem decodePacked_encodePacked_marks :
    (encodePacked "m" markFields { maxDepth := 2 } = .ok
        "AQGAAQAgEAMAQBAUAKkYTnKgAEjCc5Y4gAAAJw4DQBgBQAYbR9tYXJrH2tpbmQfYXQfYXMfeB9zYW1lA" ∧
      ∃ schema, decodePacked
          "AQGAAQAgEAMAQBAUAKkYTnKgAEjCc5Y4gAAAJw4DQBgBQAYbR9tYXJrH2tpbmQfYXQfYXMfeB9zYW1lA"
          { maxDepth := 2 } = .ok schema ∧
        Schema.same schema ⟨"m", markFields⟩ = true) ∧
    encodePacked "m" linkFields { maxDepth := 2 } = .ok "AQFAAaAEAGACDaPtzK8Og-2NLc1j7awuTWA" ∧
      decodePacked "AQFAAaAEAGACDaPtzK8Og-2NLc1j7awuTWA" { maxDepth := 2 } =
        .error (.unresolvedPointer "link" "mark") := by
  have hmark : encodePacked "m" markFields { maxDepth := 2 } = .ok
      "AQGAAQAgEAMAQBAUAKkYTnKgAEjCc5Y4gAAAJw4DQBgBQAYbR9tYXJrH2tpbmQfYXQfYXMfeB9zYW1lA" :=
    eq_ok_of_toOption (by decide +kernel)
  have hlink : encodePacked "m" linkFields { maxDepth := 2 } =
      .ok "AQFAAaAEAGACDaPtzK8Og-2NLc1j7awuTWA" := eq_ok_of_toOption (by decide +kernel)
  obtain ⟨hroundTrip, -⟩ := decodePacked_encodePacked hmark
  obtain ⟨-, hrefused⟩ := decodePacked_encodePacked hlink
  exact ⟨⟨hmark, hroundTrip rfl⟩, hlink, (hrefused _ rfl).1⟩

end FieldGrammar
