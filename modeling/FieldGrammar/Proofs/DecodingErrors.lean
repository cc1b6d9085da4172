import Mathlib
import FieldGrammar.Proofs.MetaSchemas
import FieldGrammar.Proofs.PackedRoundTrip
import FieldGrammar.Proofs.Readers
import FieldGrammar.Proofs.Values

/-!
# How decoding fails

A token may hold anything, so decoding meets errors of every kind: a foreign character, missing
bits, an offset out of range, an index outside of the string table, a node without a name, a
schema that is not valid.  All of them are reported as corruption of this token.  The exceptions
are the failures of pointers, which are about the schema: a pointer of the data's schema may have
no target or exceed the bound on following, and a schema that was decoded may have a pointer
without a target.  The meta-schema has no pointers, so its description fails in neither way.

## Main definitions

* `FailsWith` — the failure of a computation, if it fails, has a property

## Main statements

* `failsWith_decodeData` — how decoding data fails
* `Rebuild.failsStructurally_schema` — rebuilding fails with structural errors only
* `corruptToken_or_pointerError_of_decode` — how the decoders of tokens fail
-/

namespace FieldGrammar

/-! ### Failures -/

section

variable {α β : Type} {Q : Error → Prop}

/-- If the computation fails, its error has the property.  Of a computation that succeeds nothing is
said. -/
def FailsWith (Q : Error → Prop) (x : Except Error α) : Prop :=
  ∀ e, x = .error e → Q e

theorem failsWith_ok (a : α) : FailsWith Q (.ok a : Except Error α) :=
  fun _ h => nomatch h

theorem failsWith_error_iff {e : Error} : FailsWith Q (.error e : Except Error α) ↔ Q e := by
  constructor
  · exact fun h => h e rfl
  · rintro h _ ⟨⟩
    exact h

/-- A sequence fails as its first part does, or as its second part on the value of the first. -/
theorem FailsWith.bind {x : Except Error α} {f : α → Except Error β} (hx : FailsWith Q x)
    (hf : ∀ a, x = .ok a → FailsWith Q (f a)) : FailsWith Q (x >>= f) := by
  cases x with
  | error e => exact failsWith_error_iff.2 (failsWith_error_iff.1 hx)
  | ok a => exact hf a rfl

/-- A computation over a list fails as one on a member does. -/
theorem FailsWith.mapM {f : α → Except Error β} {xs : List α} (h : ∀ x ∈ xs, FailsWith Q (f x)) :
    FailsWith Q (xs.mapM f) := by
  induction xs with
  | nil => exact failsWith_ok []
  | cons x xs ih =>
      obtain ⟨hx, hxs⟩ := List.forall_mem_cons.1 h
      rw [List.mapM_cons]
      exact hx.bind fun y _ => (ih hxs).bind fun ys _ => failsWith_ok (y :: ys)

theorem FailsWith.forM {check : α → Except Error Unit} {xs : List α}
    (h : ∀ x ∈ xs, FailsWith Q (check x)) : FailsWith Q (xs.forM check) := by
  induction xs with
  | nil => exact failsWith_ok ()
  | cons x xs ih =>
      obtain ⟨hx, hxs⟩ := List.forall_mem_cons.1 h
      exact hx.bind fun _ _ => ih hxs

theorem FailsWith.mono {R : Error → Prop} {x : Except Error α} (h : FailsWith Q x)
    (hQR : ∀ e, Q e → R e) : FailsWith R x :=
  fun e he => hQR e (h e he)

/-- Renaming errors renames the property. -/
theorem FailsWith.mapError {R : Error → Prop} {x : Except Error α} {f : Error → Error}
    (h : FailsWith Q x) (hQR : ∀ e, Q e → R (f e)) : FailsWith R (x.mapError f) := by
  cases x with
  | error e => exact failsWith_error_iff.2 (hQR e (failsWith_error_iff.1 h))
  | ok a => exact failsWith_ok a

end

/-! ### Reading data -/

/-- The error is about a pointer of the schema, without a target or beyond the limit.  The pointer
is one on the walk of the schema, which resolving pointers looks at. -/
def Error.IsPointerFailure (scope : List Node) (limit : Nat) (e : Error) : Prop :=
  ∃ name target, .pointer name target ∈ Node.walkList scope ∧
    ((resolveTarget scope target = none ∧ e = .unresolvedPointer name target) ∨
      e = .depthExceeded name (limit + 1) limit)

/-- Readers inherit how they fail, so that nothing but the pointers of a schema has to be looked at.
-/
theorem inherited_failsWith {Q : Error → Prop} (hQ : ∀ e : Error, e.IsStructural → Q e) :
    Inherited fun step => ∀ r, FailsWith Q (step r) where
  read n r := by
    show FailsWith Q (r.read n)
    rw [BitReader.read]
    split
    · exact failsWith_ok _
    · exact failsWith_error_iff.2 (hQ _ (Error.isStructural_corruptToken _ _))
  ok a r := failsWith_ok (a, r)
  bind hstep hnext r := (hstep r).bind fun found hfound =>
    hnext found.1 ⟨r, found.2, hfound⟩ found.2
  refuse he r := failsWith_error_iff.2 (hQ _ he)

/-- Reading data fails structurally or at a pointer. -/
theorem Packing.failsWith_readData (fields : List Node) (limit : Nat) (r : BitReader) :
    FailsWith (fun e => e.IsStructural ∨ e.IsPointerFailure fields limit)
      (readData fields limit r) := by
  have law := inherited_failsWith (Q := fun e => e.IsStructural ∨ e.IsPointerFailure fields limit)
    fun _ => Or.inl
  have hfields := law.readFields_followRead
    (fun name target hmem hnone _ =>
      failsWith_error_iff.2 (Or.inr ⟨name, target, hmem, Or.inl ⟨hnone, rfl⟩⟩))
    (fun name target hmem _ => failsWith_error_iff.2 (Or.inr ⟨name, target, hmem, Or.inr rfl⟩))
  refine (hfields r).bind fun found _ => ?_
  dsimp only
  split
  · exact failsWith_error_iff.2 (.inl (Error.isStructural_corruptToken _ _))
  · exact failsWith_ok _

/-- The error is about this token. -/
def Error.IsCorruptionOf (token : String) (e : Error) : Prop :=
  ∃ fault, e = .corruptToken token fault

/-- Whether the error is about a token.  As a Boolean it can be evaluated on a token at hand. -/
def Error.isCorruption : Error → Bool
  | .corruptToken _ _ => true
  | _ => false

/-- Within a token a structural error becomes corruption of the token. -/
theorem Error.IsStructural.inToken {e : Error} (h : e.IsStructural) (token : String) :
    (e.inToken token).IsCorruptionOf token :=
  h token

/-- The failure of a pointer stays as it is within a token.  It is a matter of the schema, which the
token does not hold. -/
theorem Error.IsPointerFailure.inToken {scope : List Node} {limit : Nat} {e : Error}
    (h : e.IsPointerFailure scope limit) (token : String) :
    (e.inToken token).IsPointerFailure scope limit := by
  obtain ⟨name, target, hmem, ⟨hnone, rfl⟩ | rfl⟩ := h
  · exact ⟨name, target, hmem, .inl ⟨hnone, rfl⟩⟩
  · exact ⟨name, target, hmem, .inr rfl⟩

/-- A text that is not base64 is a corrupt token, and the error echoes all of it. -/
theorem Base64Url.failsWith_decode (token : String) :
    FailsWith (fun e => e.IsCorruptionOf token) (decode token) := by
  rw [decode]
  split
  · exact failsWith_ok _
  · exact failsWith_error_iff.2 ⟨_, rfl⟩

/-- **Decoding data fails with corruption of the token or at a pointer of the schema.**  Whatever
goes wrong in reading is reported within the token; what is said of pointers is passed on. -/
theorem failsWith_decodeData (fields : List Node) (token : String) (options : CodecOptions) :
    FailsWith (fun e => e.IsCorruptionOf token ∨ e.IsPointerFailure fields options.pointerDepth)
      (decodeData fields token options) := by
  have hbytes : FailsWith (fun e => e.IsStructural ∨ e.IsPointerFailure fields options.pointerDepth)
      (Base64Url.decode token) :=
    (Base64Url.failsWith_decode token).mono fun e h => by
      obtain ⟨fault, rfl⟩ := h
      exact .inl (Error.isStructural_corruptToken token fault)
  refine (hbytes.bind fun bytes _ => Packing.failsWith_readData _ _ _).mapError fun e h => ?_
  exact h.imp (·.inToken token) (·.inToken token)

/-! ### Rebuilding a schema -/

namespace Rebuild

/-- The computation fails with structural errors only.  Rebuilding does not know the token, so its
errors are turned into corruption of the token by its caller. -/
abbrev FailsStructurally {α : Type} (x : Except Error α) : Prop :=
  FailsWith Error.IsStructural x

/-- An attribute that is missing, or is of another kind, is reported as corruption. -/
theorem failsStructurally_missing {α : Type} (key : String) :
    FailsStructurally (.error (missing key) : Except Error α) :=
  failsWith_error_iff.2 (Error.isStructural_corruptToken _ _)

theorem failsStructurally_require {α : Type} (key : String) (x : Option α) :
    FailsStructurally (require key x) := by
  cases x with
  | none => exact failsStructurally_missing key
  | some a => exact failsWith_ok a

theorem failsStructurally_lengthAt (entries : Entries Value) (key : String) :
    FailsStructurally (lengthAt entries key) := by
  refine (failsStructurally_require key _).bind fun n _ => ?_
  split
  · exact failsWith_ok _
  · exact failsStructurally_missing key

variable (table : StringTable)

/-- A string is an index in the table.  It may be no number, or beyond the table, and both are
structural. -/
theorem failsStructurally_string (value : Value) : FailsStructurally (string table value) := by
  rw [string]
  split
  · split
    · split
      · exact failsWith_ok _
      · exact failsWith_error_iff.2 (Error.isStructural_stringTable _)
    · exact failsStructurally_missing _
  · exact failsStructurally_missing _

theorem failsStructurally_stringAt (entries : Entries Value) (key : String) :
    FailsStructurally (stringAt table entries key) :=
  (failsStructurally_require key _).bind fun value _ => failsStructurally_string table value

/-- The options of an enumeration are indices of strings, read one by one. -/
theorem failsStructurally_enumeration (name : String) (entries : Entries Value) :
    FailsStructurally (enumeration table name entries) :=
  (failsStructurally_require "options" _).bind fun _ _ =>
    (FailsWith.mapM fun index _ => failsStructurally_string table index).bind fun _ _ =>
      failsWith_ok _

/-- The kind of a node is a tag, and one that no kind has is structural. -/
theorem failsStructurally_kindAt (entries : Entries Value) :
    FailsStructurally (kindAt entries) := by
  refine (failsStructurally_require _ _).bind fun value _ => ?_
  refine (failsStructurally_require _ _).bind fun tag _ => ?_
  split
  · exact failsWith_ok _
  · exact failsWith_error_iff.2 (Error.isStructural_corruptToken _ _)

/-- A node fails structurally if the nodes nested under its keys do.  The three hypotheses are for a
single node, a list of nodes, and the lists of a union's variants. -/
theorem failsStructurally_node_object {entries : Entries Value}
    (hnode : ∀ key, FailsStructurally (nodeAt table entries key))
    (hnodes : ∀ key, FailsStructurally (nodesAt table entries key))
    (hvariants : ∀ key, FailsStructurally (variantsAt table entries key)) :
    FailsStructurally (node table (.object entries)) := by
  rw [node]
  refine (failsStructurally_kindAt entries).bind fun kind _ => ?_
  refine (failsStructurally_stringAt table entries "name").bind fun name _ => ?_
  -- Every kind requires its attributes in a fixed order, and fails at the first one that is
  -- missing.
  cases kind with
  | bool => exact failsWith_ok _
  | int =>
      refine (failsStructurally_require "min" _).bind fun min _ => ?_
      exact (failsStructurally_require "max" _).bind fun max _ => failsWith_ok _
  | fixed =>
      refine (failsStructurally_require "min" _).bind fun min _ => ?_
      refine (failsStructurally_require "max" _).bind fun max _ => ?_
      exact (failsStructurally_require "precision" _).bind fun precision _ => failsWith_ok _
  | enumeration =>
      exact (failsStructurally_enumeration table name entries).bind fun e _ => failsWith_ok _
  | optional => exact (hnode "inner").bind fun inner _ => failsWith_ok _
  | array =>
      refine (failsStructurally_lengthAt entries "minLength").bind fun minLength _ => ?_
      refine (failsStructurally_lengthAt entries "maxLength").bind fun maxLength _ => ?_
      exact (hnode "item").bind fun item _ => failsWith_ok _
  | enumArray =>
      refine (failsStructurally_stringAt table entries "enumName").bind fun enumName _ => ?_
      refine (failsStructurally_lengthAt entries "minLength").bind fun minLength _ => ?_
      refine (failsStructurally_lengthAt entries "maxLength").bind fun maxLength _ => ?_
      exact (failsStructurally_enumeration table enumName entries).bind fun e _ => failsWith_ok _
  | object => exact (hnodes "fields").bind fun fields _ => failsWith_ok _
  | union =>
      refine (failsStructurally_stringAt table entries "discriminatorName").bind
        fun discriminatorName _ => ?_
      refine (failsStructurally_enumeration table discriminatorName entries).bind
        fun discriminator _ => ?_
      refine (failsStructurally_require "variants" _).bind fun lists _ => ?_
      split
      · exact failsWith_error_iff.2 (Error.isStructural_corruptToken _ _)
      · exact (hvariants "variants").bind fun variants _ => failsWith_ok _
  | pointer =>
      exact (failsStructurally_stringAt table entries "targetName").bind fun target _ =>
        failsWith_ok _

/-! Nodes, and lists of them, from the values that they are rebuilt from. -/

theorem failsStructurally_nodes {items : List Value}
    (h : ∀ item ∈ items, FailsStructurally (node table item)) :
    FailsStructurally (nodes table items) := by
  induction items with
  | nil => exact failsWith_ok []
  | cons item rest ih =>
      obtain ⟨hitem, hrest⟩ := List.forall_mem_cons.1 h
      rw [nodes]
      exact hitem.bind fun first _ => (ih hrest).bind fun more _ => failsWith_ok (first :: more)

/-- The lists of a union's variants are rebuilt one after the other.  A value among them that is not
a list is reported as missing. -/
theorem failsStructurally_variants {lists : List Value}
    (h : ∀ item ∈ lists, ∀ items, item = .array items → FailsStructurally (nodes table items)) :
    FailsStructurally (variants table lists) := by
  induction lists with
  | nil => exact failsWith_ok []
  | cons item rest ih =>
      obtain ⟨hitem, hrest⟩ := List.forall_mem_cons.1 h
      cases item with
      | array items =>
          rw [variants]
          exact (hitem items rfl).bind fun first _ =>
            (ih hrest).bind fun more _ => failsWith_ok (first :: more)
      | null | bool | int | fixed | string | object => exact failsStructurally_missing _

/-- The node under a key is the first one of the key.  The recursion looks it up and rebuilds it in
one, so the hypothesis is about all entries. -/
theorem failsStructurally_nodeAt {entries : Entries Value}
    (h : ∀ entry ∈ entries, FailsStructurally (node table entry.2)) (key : String) :
    FailsStructurally (nodeAt table entries key) := by
  induction entries with
  | nil => exact failsStructurally_missing key
  | cons entry rest ih =>
      obtain ⟨hentry, hrest⟩ := List.forall_mem_cons.1 h
      rw [nodeAt]
      split
      · exact hentry
      · exact ih hrest

/-- The list of nodes under a key, as in `failsStructurally_nodeAt`. -/
theorem failsStructurally_nodesAt {entries : Entries Value}
    (h : ∀ entry ∈ entries, ∀ items, entry.2 = .array items →
      FailsStructurally (nodes table items)) (key : String) :
    FailsStructurally (nodesAt table entries key) := by
  induction entries with
  | nil => exact failsStructurally_missing key
  | cons entry rest ih =>
      obtain ⟨hentry, hrest⟩ := List.forall_mem_cons.1 h
      obtain ⟨k, value⟩ := entry
      unfold nodesAt
      split
      · split
        · exact hentry _ rfl
        · exact failsStructurally_missing key
      · exact ih hrest

/-- The lists of nodes under a key, as in `failsStructurally_nodeAt`. -/
theorem failsStructurally_variantsAt {entries : Entries Value}
    (h : ∀ entry ∈ entries, ∀ lists, entry.2 = .array lists →
      FailsStructurally (variants table lists)) (key : String) :
    FailsStructurally (variantsAt table entries key) := by
  induction entries with
  | nil => exact failsStructurally_missing key
  | cons entry rest ih =>
      obtain ⟨hentry, hrest⟩ := List.forall_mem_cons.1 h
      obtain ⟨k, value⟩ := entry
      unfold variantsAt
      split
      · split
        · exact hentry _ rfl
        · exact failsStructurally_missing key
      · exact ih hrest

/-- **Nodes are rebuilt with structural errors only**, and so are the nodes of a list and those of a
list of lists.  The three are one induction over the value, since a node holds lists of nodes as
attributes. -/
theorem failsStructurally_node (value : Value) :
    FailsStructurally (node table value) ∧ ∀ items, value = .array items →
      FailsStructurally (nodes table items) ∧ FailsStructurally (variants table items) := by
  -- What a list holds depends on the key it is found under, so that all its readings are carried
  -- along: nodes for fields, lists of nodes for variants.
  induction value using Value.induction with
  | leaf value harray hobject =>
      refine ⟨?_, fun items heq => (harray items heq).elim⟩
      cases value with
      | object entries => exact (hobject entries rfl).elim
      | null | bool | int | fixed | string | array => exact failsStructurally_missing "node"
  | array items ih =>
      refine ⟨failsStructurally_missing "node", ?_⟩
      rintro _ ⟨⟩
      exact ⟨failsStructurally_nodes table fun item hitem => (ih item hitem).1,
        failsStructurally_variants table fun item hitem nested heq =>
          ((ih item hitem).2 nested heq).1⟩
  | object entries ih =>
      refine ⟨failsStructurally_node_object table ?_ ?_ ?_, fun items heq => nomatch heq⟩
      · exact failsStructurally_nodeAt table fun entry hentry => (ih entry hentry).1
      · exact failsStructurally_nodesAt table fun entry hentry items heq =>
          ((ih entry hentry).2 items heq).1
      · exact failsStructurally_variantsAt table fun entry hentry lists heq =>
          ((ih entry hentry).2 lists heq).2

/-! The table, and the whole schema. -/

theorem failsStructurally_octet (value : Value) : FailsStructurally (octet value) := by
  rw [octet]
  split
  · split
    · exact failsWith_ok _
    · exact failsStructurally_missing _
  · exact failsStructurally_missing _

/-- The string table is a list of octets: a number that is none, or octets that are no table, are
structural errors. -/
theorem failsStructurally_tableOf (values : List Value) : FailsStructurally (tableOf values) := by
  refine (FailsWith.mapM fun value _ => failsStructurally_octet value).bind fun bytes _ => ?_
  split
  · exact failsWith_ok _
  · exact failsWith_error_iff.2 (Error.isStructural_stringTable _)

/-- **A schema is rebuilt with structural errors only**, whatever the data are, also such as no
meta-schema describes. -/
theorem failsStructurally_schema (data : Value) : FailsStructurally (schema data) := by
  refine (failsStructurally_require "root" _).bind fun root _ => ?_
  refine (failsStructurally_require "meta" _).bind fun header _ => ?_
  refine (failsStructurally_require "version" _).bind fun version _ => ?_
  split
  · exact failsWith_error_iff.2 (Error.isStructural_corruptToken _ _)
  · refine (failsStructurally_require "strings" _).bind fun values _ => ?_
    refine (failsStructurally_tableOf values).bind fun table _ => ?_
    split
    · exact failsWith_error_iff.2 (Error.isStructural_stringTable _)
    · refine (failsStructurally_nodesAt table ?_ "fields").bind fun fields _ => failsWith_ok _
      exact fun entry _ items heq => ((failsStructurally_node table entry.2).2 items heq).1

end Rebuild

/-! ### Decoding a schema -/

/-- The meta-schema has no pointers. -/
theorem MetaSchema.pervasive_ne_pointer :
    Pervasive fun m => ∀ name target, m ≠ .pointer name target where
  int _ _ _ _ _ _ := nofun
  fixedBound _ _ _ := nofun
  precision _ _ := nofun
  array _ _ _ _ _ _ _ := nofun
  object _ _ _ _ _ := nofun
  union levels _ _ _ := by
    rw [nodeUnion_eq]
    exact nofun

/-- Decoding a description fails with corruption of the token. -/
theorem MetaSchema.failsWith_decodeData_fields (depth : Nat) (token : String)
    (options : CodecOptions) :
    FailsWith (Error.IsCorruptionOf token) (decodeData (fields depth) token options) := by
  refine (failsWith_decodeData (fields depth) token options).mono fun e h => ?_
  rcases h with h | ⟨name, target, hmem, -⟩
  · exact h
  · exact (pervasive_ne_pointer.of_mem_fields hmem name target rfl).elim

/-- What validation reports about a schema in a token is about the token. -/
theorem Error.isCorruptionOf_asInvalidSchema (token : String) (e : Error) :
    (e.asInvalidSchema token).IsCorruptionOf token := by
  cases e <;> exact ⟨_, rfl⟩

/-- The error is about a valid schema, of which a pointer has no target.  It is the only error of
decoding that does not mention the token. -/
def Error.IsDangling (e : Error) : Prop :=
  ∃ schema field target, Schema.validate schema = .ok () ∧
    Schema.resolvePointers schema = .error e ∧ e = .unresolvedPointer field target

/-- What decoding does with a valid schema fails at pointers only. -/
theorem failsWith_resolvePointers {schema : Schema} (hvalid : schema.validate = .ok ()) :
    FailsWith Error.IsDangling (schema.resolvePointers >>= fun _ => .ok schema) := by
  refine FailsWith.bind (fun e he => ?_) fun _ _ => failsWith_ok schema
  obtain ⟨field, target, heq⟩ := eq_unresolvedPointer_of_resolvePointers he
  exact ⟨schema, field, target, hvalid, he, heq⟩

/-- Decoding a packed schema fails with corruption of the token or at a pointer of the schema.  The
steps are those of the decoder: the description, the rebuilding, the validation and the pointers. -/
theorem failsWith_decodePacked {token : String} {options : CodecOptions}
    (hdepth : options.maxDepth ≤ MetaSchema.maxDepth) :
    FailsWith (fun e => e.IsCorruptionOf token ∨ e.IsDangling) (decodePacked token options) := by
  -- Reading, rebuilding and validating report corruption; resolving alone keeps its own error.
  have hlayout := MetaSchema.ofDepth_eq_ok_iff.2 ⟨hdepth, rfl⟩
  rw [decodePacked, hlayout, ok_bind]
  refine ((MetaSchema.failsWith_decodeData_fields _ token options).mono fun _ => .inl).bind
    fun data _ => ?_
  refine ((Rebuild.failsStructurally_schema data).mapError fun e he => .inl (he token)).bind
    fun schema _ => ?_
  have hvalidate : FailsWith (Error.IsCorruptionOf token)
      (schema.validate.mapError (Error.asInvalidSchema token)) :=
    FailsWith.mapError (Q := fun _ => True) (fun _ _ => trivial) fun e _ =>
      Error.isCorruptionOf_asInvalidSchema token e
  refine (hvalidate.mono fun _ => .inl).bind fun _ hvalid => ?_
  exact (failsWith_resolvePointers (mapError_eq_ok_iff.1 hvalid)).mono fun _ => .inr

/-- **How the decoders of tokens fail.**  Whatever the token holds, decoding a schema fails with
corruption of this token, or because the schema in it is valid and has a pointer without a target.
Decoding data fails with corruption of this token, or at a pointer of the data's schema that has no
target or that is beyond the bound on following.  Corruption echoes the token as it was given.  A
bound on depth that is not supported is refused before the token is looked at, so it is excluded. -/
theorem corruptToken_or_pointerError_of_decode (token : String) (options : CodecOptions) :
    (options.maxDepth ≤ MetaSchema.maxDepth → ∀ e, decodePacked token options = .error e →
      (∃ fault, e = .corruptToken token fault) ∨
        ∃ schema field target, Schema.validate schema = .ok () ∧
          Schema.resolvePointers schema = .error e ∧ e = .unresolvedPointer field target) ∧
    ∀ fields e, decodeData fields token options = .error e →
      (∃ fault, e = .corruptToken token fault) ∨
        ∃ name target, .pointer name target ∈ Node.walkList fields ∧
          ((resolveTarget fields target = none ∧ e = .unresolvedPointer name target) ∨
            e = .depthExceeded name (options.pointerDepth + 1) options.pointerDepth) :=
  ⟨fun hdepth => failsWith_decodePacked hdepth,
    fun fields => failsWith_decodeData fields token options⟩

/-- The token of a link without a target holds a valid schema with this defect; against the link
itself, a token without bits is corrupt. -/
theorem corruptToken_or_pointerError_of_decode_linkFields :
    (∃ schema field target, Schema.validate schema = .ok () ∧
      Schema.resolvePointers schema = .error (.unresolvedPointer field target)) ∧
    ∃ fault, decodeData linkFields "" {} = .error (.corruptToken "" fault) := by
  obtain ⟨e, hschema, hpointer⟩ := exists_eq_error_of_match
    (x := decodePacked "AQFAAaAEAGACDaPtzK8Og-2NLc1j7awuTWA" { maxDepth := 2 })
    (p := fun e => match e with | .unresolvedPointer _ _ => true | _ => false)
    (by decide +kernel)
  obtain ⟨e', hdata, hcorrupt⟩ := exists_eq_error_of_match (x := decodeData linkFields "" {})
    (p := Error.isCorruption) (by decide +kernel)
  constructor
  · rcases (corruptToken_or_pointerError_of_decode _ _).1 (by decide) e hschema with
      ⟨fault, rfl⟩ | ⟨schema, field, target, hvalid, hresolve, rfl⟩
    · cases hpointer
    · exact ⟨schema, field, target, hvalid, hresolve⟩
  · rcases (corruptToken_or_pointerError_of_decode _ _).2 _ e' hdata with
      ⟨fault, rfl⟩ | ⟨name, target, -, ⟨-, rfl⟩ | rfl⟩
    · exact ⟨fault, hdata⟩
    · cases hcorrupt
    · cases hcorrupt

end FieldGrammar
