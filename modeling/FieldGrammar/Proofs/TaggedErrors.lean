import Mathlib
import FieldGrammar.Proofs.DecodingErrors
import FieldGrammar.SchemaToken.Tagged

/-!
# How decoding tagged tokens fails

Behind its marker a tagged token is in one of two formats, and what goes wrong in either is
reported about the whole token.  The formats are not quite alike: that the schema in a packed
token is invalid counts as corruption of the token, whereas for a compressed token the defect of
the schema itself is reported.

## Main statements

* `Schema.failsWith_validate` — validation fails with defects of nodes only
* `failsWith_decodeCompressed` — how decoding a compressed token fails
* `corruptToken_or_schemaDefect_of_decodeTagged` — how decoding a tagged token fails
-/

namespace FieldGrammar

/-! ### Validation -/

/-- The error is a defect of a node.  It names the node and not the token. -/
def Error.IsDefect (e : Error) : Prop :=
  ∃ field fault, e = .construction field fault

/-- Whether the error is a defect of a node.  As a Boolean it can be evaluated on a token at hand.
-/
def Error.isConstruction : Error → Bool
  | .construction _ _ => true
  | _ => false

/-- Checks of nodes fail with errors of this form only, so that this is the last step of each of the
proofs below. -/
theorem Error.isDefect_construction (field : String) (fault : NodeFault) :
    (Error.construction field fault).IsDefect :=
  ⟨field, fault, rfl⟩

theorem failsWith_checkDistinctNames (owner : String) (fields : List Node) :
    FailsWith Error.IsDefect (checkDistinctNames owner fields) := by
  rw [checkDistinctNames]
  split
  · exact failsWith_error_iff.2 (Error.isDefect_construction _ _)
  · exact failsWith_ok ()

theorem failsWith_checkLengths (name : String) (minLength maxLength : UInt32) :
    FailsWith Error.IsDefect (checkLengths name minLength maxLength) := by
  rw [checkLengths]
  split
  · exact failsWith_error_iff.2 (Error.isDefect_construction _ _)
  · exact failsWith_ok ()

theorem failsWith_checkVariantNames (owner : String) (variants : Entries (List Node)) :
    FailsWith Error.IsDefect (checkVariantNames owner variants) := by
  induction variants with
  | nil => exact failsWith_ok ()
  | cons entry rest ih => exact (failsWith_checkDistinctNames owner entry.2).bind fun _ _ => ih

theorem Enumeration.failsWith_validate (e : Enumeration) :
    FailsWith Error.IsDefect e.validate := by
  rw [validate]
  split
  · exact failsWith_error_iff.2 (Error.isDefect_construction _ _)
  · split
    · exact failsWith_error_iff.2 (Error.isDefect_construction _ _)
    · exact failsWith_ok ()

namespace Node

/-- The check of a single node, which does not look into its children.  Each kind has its own
checks, and all of them report defects. -/
theorem failsWith_check (node : Node) : FailsWith Error.IsDefect node.check := by
  cases node with
  | bool | optional | pointer => exact failsWith_ok ()
  | int name min max =>
      rw [check]
      split
      · exact failsWith_error_iff.2 (Error.isDefect_construction _ _)
      · exact failsWith_ok ()
  | fixed name min max precision =>
      rw [check]
      split
      · exact failsWith_error_iff.2 (Error.isDefect_construction _ _)
      · split
        · exact failsWith_error_iff.2 (Error.isDefect_construction _ _)
        · split
          · exact failsWith_error_iff.2 (Error.isDefect_construction _ _)
          · exact failsWith_ok ()
  | enumeration e => exact e.failsWith_validate
  | array name minLength maxLength item => exact failsWith_checkLengths name minLength maxLength
  | enumArray name minLength maxLength e =>
      exact (failsWith_checkLengths name minLength maxLength).bind fun _ _ => e.failsWith_validate
  | object name fields => exact failsWith_checkDistinctNames name fields
  | union name discriminator variants =>
      rw [check]
      refine discriminator.failsWith_validate.bind fun _ _ => ?_
      split
      · exact failsWith_checkVariantNames name variants
      · exact failsWith_error_iff.2 (Error.isDefect_construction _ _)

/-- A list of nodes is valid up to the first node that is not, whose defect is reported. -/
theorem failsWith_validateList {fields : List Node}
    (h : ∀ field ∈ fields, FailsWith Error.IsDefect field.validate) :
    FailsWith Error.IsDefect (validateList fields) := by
  induction fields with
  | nil => exact failsWith_ok ()
  | cons field rest ih =>
      obtain ⟨hfield, hrest⟩ := List.forall_mem_cons.1 h
      rw [validateList]
      exact hfield.bind fun _ _ => ih hrest

/-- A node is checked before its children, so the error is one of the node or, by induction, one of
a child. -/
theorem failsWith_validate (node : Node) : FailsWith Error.IsDefect node.validate := by
  induction node with
  | bool | int | fixed | enumeration | enumArray | pointer =>
      rw [validate]
      · exact failsWith_check _
      all_goals simp
  | optional name inner ih =>
      rw [validate]
      exact (failsWith_check _).bind fun _ _ => ih
  | array name minLength maxLength item ih =>
      rw [validate]
      exact (failsWith_check _).bind fun _ _ => ih
  | object name fields ih =>
      rw [validate]
      exact (failsWith_check _).bind fun _ _ => failsWith_validateList ih
  | union name discriminator variants ih =>
      rw [validate]
      refine (failsWith_check _).bind fun _ _ => FailsWith.forM fun option _ => ?_
      rw [validateAt_eq]
      refine failsWith_validateList fun field hfield => ?_
      obtain ⟨entry, hentry, hmem⟩ := Entries.exists_mem_of_mem_getD hfield
      exact ih entry hentry field hmem

end Node

/-- Validation fails with defects of nodes only. -/
theorem Schema.failsWith_validate (schema : Schema) :
    FailsWith Error.IsDefect schema.validate :=
  (failsWith_checkDistinctNames schema.name schema.fields).bind fun _ _ =>
    Node.failsWith_validateList fun field _ => field.failsWith_validate

/-! ### Compressed tokens -/

namespace Compressed

/-- What stands before the schema in a compressed token: the text is base64, and what it writes
inflates.  All that can go wrong here is corruption. -/
theorem failsWith_contents (token : String) :
    FailsWith (Error.IsCorruptionOf token) (contents token) := by
  refine (Base64Url.failsWith_decode token).bind fun bytes _ => ?_
  intro e he
  obtain ⟨fault, -, rfl⟩ := exists_of_mapError_eq_error he
  exact ⟨_, rfl⟩

/-- What is inflated is the text of a schema, or the token is corrupt.  Whether the schema is valid
is not asked yet. -/
theorem failsWith_schemaOf (token : String) (bytes : List UInt8) :
    FailsWith (Error.IsCorruptionOf token) (schemaOf token bytes) := by
  rw [schemaOf]
  split
  · exact failsWith_error_iff.2 ⟨_, rfl⟩
  · split
    · exact failsWith_error_iff.2 ⟨_, rfl⟩
    · exact failsWith_ok _

/-- The error is the defect of the schema that the token writes: the token is one that can be read,
and the schema in it fails validation with this error. -/
def IsDefectIn (token : String) (e : Error) : Prop :=
  ∃ bytes schema, contents token = .ok bytes ∧ schemaOf token bytes = .ok schema ∧
    schema.validate = .error e ∧ e.IsDefect

end Compressed

/-- Decoding a compressed token fails with corruption of the token, with the defect of the schema
in it, or at a pointer of that schema. -/
theorem failsWith_decodeCompressed (token : String) :
    FailsWith (fun e => e.IsCorruptionOf token ∨ e.IsDangling ∨ Compressed.IsDefectIn token e)
      (decodeCompressed token) := by
  refine ((Compressed.failsWith_contents token).mono fun _ => .inl).bind fun bytes hbytes => ?_
  refine ((Compressed.failsWith_schemaOf token bytes).mono fun _ => .inl).bind
    fun schema hschema => ?_
  refine FailsWith.bind (fun e he => ?_) fun _ hvalid => ?_
  -- The error of validation is passed on as it is.
  · have hdefect : e.IsDefect := schema.failsWith_validate e he
    exact .inr (.inr ⟨bytes, schema, hbytes, hschema, he, hdefect⟩)
  · exact (failsWith_resolvePointers hvalid).mono fun _ h => .inr (.inl h)

/-! ### Tagged tokens -/

/-- Corruption of the body becomes corruption of the token that has the body. -/
theorem Error.IsCorruptionOf.echoing {body : String} {e : Error} (h : e.IsCorruptionOf body)
    (token : String) : (e.echoing token).IsCorruptionOf token := by
  obtain ⟨fault, rfl⟩ := h
  exact ⟨fault, rfl⟩

/-- Only corruption echoes a token. -/
theorem Error.IsDangling.echoing {e : Error} (h : e.IsDangling) (token : String) :
    e.echoing token = e := by
  obtain ⟨schema, field, target, -, -, rfl⟩ := h
  rfl

/-- The defect of a schema mentions no token, so nothing in it is replaced.  This is why it is
reported as it is, without the token. -/
theorem Error.IsDefect.echoing {e : Error} (h : e.IsDefect) (token : String) :
    e.echoing token = e := by
  obtain ⟨field, fault, rfl⟩ := h
  rfl

/-- **How decoding a tagged token fails.**  The error is corruption of the whole tagged token, or
the schema in it is valid and has a pointer without a target, or the token is a compressed one that
writes an invalid schema, whose defect is the error.  In the packed format such a defect is turned
into corruption by the decoder; in the compressed format nothing turns it. -/
theorem corruptToken_or_schemaDefect_of_decodeTagged {token : String} {options : CodecOptions}
    {e : Error} (hdepth : options.maxDepth ≤ MetaSchema.maxDepth)
    (h : decodeTagged token options = .error e) :
    (∃ fault, e = .corruptToken token fault) ∨
      (∃ schema field target, Schema.validate schema = .ok () ∧
        Schema.resolvePointers schema = .error e ∧ e = .unresolvedPointer field target) ∨
      ∃ body bytes schema, splitTagged? token = some (.compressed, body) ∧
        Compressed.contents body = .ok bytes ∧ Compressed.schemaOf body bytes = .ok schema ∧
        schema.validate = .error e ∧ ∃ field fault, e = .construction field fault := by
  rw [decodeTagged] at h
  split at h
  · cases h
    exact .inl ⟨_, rfl⟩
  · next format body hsplit =>
    cases format with
    | packed =>
        obtain ⟨inner, hinner, rfl⟩ := exists_of_mapError_eq_error h
        rcases failsWith_decodePacked hdepth inner hinner with hcorrupt | hdangling
        · exact .inl (hcorrupt.echoing token)
        · rw [hdangling.echoing token]
          exact .inr (.inl hdangling)
    | compressed =>
        obtain ⟨inner, hinner, rfl⟩ := exists_of_mapError_eq_error h
        rcases failsWith_decodeCompressed body inner hinner with
          hcorrupt | hdangling | ⟨bytes, schema, hbytes, hschema, hinvalid, hdefect⟩
        · exact .inl (hcorrupt.echoing token)
        · rw [hdangling.echoing token]
          exact .inr (.inl hdangling)
        · rw [hdefect.echoing token]
          exact .inr (.inr ⟨body, bytes, schema, hsplit, hbytes, hschema, hinvalid, hdefect⟩)

/-- A truncated packed token is corrupt as a whole. -/
theorem corruptToken_or_schemaDefect_of_decodeTagged_truncated :
    ∃ fault, decodeTagged "bAAAA" {} = .error (.corruptToken "bAAAA" fault) := by
  obtain ⟨e, he, hcorrupt⟩ := exists_eq_error_of_match (x := decodeTagged "bAAAA" {})
    (p := Error.isCorruption) (by decide +kernel)
  rcases corruptToken_or_schemaDefect_of_decodeTagged (by decide) he with
    ⟨fault, rfl⟩ | ⟨schema, field, target, -, -, rfl⟩ | ⟨body, bytes, schema, -, -, -, -, hdefect⟩
  · exact ⟨fault, he⟩
  · cases hcorrupt
  · obtain ⟨field, fault, rfl⟩ := hdefect
    cases hcorrupt

/-- The schema in this token has a number whose least value exceeds its greatest one.  The error
is neither corruption of the token nor about a pointer. -/
theorem exists_decodeTagged_eq_error_of_defect :
    ∃ e, decodeTagged
        "zAUEAvv97Im5hbWUiOiJzIiwiZmllbGRzIjpbeyJ0eXBlIjoiaW50IiwibmFtZSI6Im4iLCJtaW4iOjEsIm1heCI6MH1dfQ"
        {} = .error e ∧
      (∀ token fault, e ≠ .corruptToken token fault) ∧
      ∀ field target, e ≠ .unresolvedPointer field target := by
  obtain ⟨e, he, hdefect⟩ := exists_eq_error_of_match (x := decodeTagged
      "zAUEAvv97Im5hbWUiOiJzIiwiZmllbGRzIjpbeyJ0eXBlIjoiaW50IiwibmFtZSI6Im4iLCJtaW4iOjEsIm1heCI6MH1dfQ"
      {})
    (p := Error.isConstruction) (by decide +kernel)
  refine ⟨e, he, ?_, ?_⟩
  · rintro token fault rfl
    cases hdefect
  · rintro field target rfl
    cases hdefect

end FieldGrammar
