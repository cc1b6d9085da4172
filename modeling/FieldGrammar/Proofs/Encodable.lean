import Mathlib
import FieldGrammar.Proofs.Description
import FieldGrammar.Proofs.MetaSchemas
import FieldGrammar.SchemaToken.Tagged

/-!
# Which schemas have a packed token

The limits of packed tokens are those of the meta-schema: a value can be written against it when
its lists are short enough, its numbers are small enough and its nesting is no deeper than the
levels.  Matching these against the attributes of a schema, node by node, gives the exact
condition for a schema to have a token (`Encodable`).

Indices into the string table are the one limit that is not about a single node.  They are
distinct numbers from zero on, so they all fit exactly when the table has at most 4096 entries.

## Main definitions

* `Node.WithinLimits` — the limits on the attributes of one node
* `Encodable` — what a schema needs for a packed token

## Main statements

* `MetaSchema.writtenWhereFits` — a node is written at the levels that it fits
* `isIndex_tableOf_iff` — when the indices fit
* `exists_encodePacked_iff` — the schemas that have a packed token
-/

namespace FieldGrammar

/-- The index is one that the meta-schema has room for.  There is one bound for all strings, since
any of them may have any index. -/
def MetaSchema.IsIndex (index : Int64) : Prop :=
  0 ≤ index ∧ index ≤ 4095

namespace Node

/-- The number fits 32 bits. -/
def FitsInt32 (n : Int64) : Prop :=
  -2147483648 ≤ n ∧ n ≤ 2147483647

/-- The step number of `x` is between those of two limits. -/
def StepsWithin (low high x : Float) : Prop :=
  MetaSchema.grid.stepsOf low ≤ MetaSchema.grid.stepsOf x ∧
    MetaSchema.grid.stepsOf x ≤ MetaSchema.grid.stepsOf high

/-- The attributes of a node are within the limits of packed tokens.  These are limits on its
numbers, its lengths, its options and its fields; its strings and its depth are another matter. -/
def WithinLimits : Node → Prop
  | int _ min max => FitsInt32 min ∧ FitsInt32 max
  | fixed _ min max precision =>
    StepsWithin (-MetaSchema.fixedLimit) MetaSchema.fixedLimit min ∧
      StepsWithin (-MetaSchema.fixedLimit) MetaSchema.fixedLimit max ∧
        StepsWithin MetaSchema.resolution MetaSchema.maxPrecision precision
  | enumeration e => e.options.length ≤ 256
  | array _ minLength maxLength _ => minLength.toNat ≤ 65535 ∧ maxLength.toNat ≤ 65535
  | enumArray _ minLength maxLength e =>
    (minLength.toNat ≤ 65535 ∧ maxLength.toNat ≤ 65535) ∧ e.options.length ≤ 256
  | object _ fields => fields.length ≤ 255
  | union _ discriminator variants =>
    discriminator.options.length ≤ 256 ∧ ∀ entry ∈ variants, entry.2.length ≤ 255
  | _ => True

end Node

namespace MetaSchema

open Packing Describe

section

variable {follow : WritePointer} {indexOf : String → Int64} {levels : Nat} {name : String}

/-- A leaf can be written at every level when each of its attributes can, in the order in which they
are described. -/
theorem writable_leaf_iff {kind : Kind} (hkind : kind.isContainer = false) {rest : Entries Value}
    (hkeys : Entries.keys rest = (attributes kind).map Node.name) :
    Writable follow (nodeUnion levels name) (.object (("kind", .string kind.tag) :: rest)) ↔
      List.Forall₂ (fun field entry => Writable follow field entry.2) (attributes kind) rest := by
  rw [← kindFields_of_leaf hkind levels] at hkeys ⊢
  rw [writable_nodeUnion_iff_forall₂ hkeys]
  exact and_iff_right (mem_kinds_of_leaf hkind levels)

/-! ### Attributes -/

theorem writable_index_iff {n : Int64} : Writable follow (index name) (.int n) ↔ IsIndex n :=
  writable_int_iff

/-- A bound on integers can be written when it fits 32 bits, as the meta-schema has no wider
integers for it. -/
theorem writable_intBound_iff {n : Int64} :
    Writable follow (intBound name) (.int n) ↔ Node.FitsInt32 n :=
  writable_int_iff

/-- A bound of a number with a point can be written when its step is between those of the limit and
its opposite.  It is compared by steps and not as a number, as every such value is. -/
theorem writable_fixedBound_iff {x : Float} (hfinite : x.isFinite = true) :
    Writable follow (fixedBound name) (.fixed x) ↔
      Node.StepsWithin (-fixedLimit) fixedLimit x := by
  rw [fixedBound, writable_fixed_iff]
  exact and_iff_right hfinite

/-- A precision can be written when its step is between those of the finest and the coarsest one. -/
theorem writable_precision_iff {x : Float} (hfinite : x.isFinite = true) :
    Writable follow precision (.fixed x) ↔ Node.StepsWithin resolution maxPrecision x := by
  rw [precision, writable_fixed_iff]
  exact and_iff_right hfinite

/-- Lengths of arrays up to the bound of tokens can be written. -/
theorem writable_length_iff {n : UInt32} :
    Writable follow (length name) (Describe.length n) ↔ n.toNat ≤ 65535 := by
  rw [length, Describe.length, writable_int_iff]
  have hn := n.toNat_lt
  have hcast : (Int64.ofInt n.toNat).toInt = n.toNat :=
    Int64.toInt_ofInt_of_le (by omega) (by omega)
  rw [Int64.le_iff_toInt_le, Int64.le_iff_toInt_le, hcast]
  show (0 : Int) ≤ _ ∧ _ ≤ (65535 : Int) ↔ _
  omega

/-- Up to 256 options can be written, and no fewer than one. -/
theorem writable_options_iff {e : Enumeration} :
    Writable follow (indexList name) (ofOptions (fun s => .int (indexOf s)) e) ↔
      (1 ≤ e.options.length ∧ e.options.length ≤ 256) ∧
        ∀ option ∈ e.options, IsIndex (indexOf option) := by
  rw [indexList, ofOptions, writable_array_iff, List.length_map, List.forall_mem_map]
  simp only [index, writable_int_iff]
  rfl

/-- A list of nodes can be written when it has at most 255 and each of them can. -/
theorem writable_nodeList_iff {field : Node} {items : List Value} :
    Writable follow (nodeList name field) (.array items) ↔
      items.length ≤ 255 ∧ ∀ item ∈ items, Writable follow field item := by
  rw [nodeList, writable_array_iff]
  exact and_congr_left fun _ => and_iff_right (Nat.zero_le _)

/-- The strings of a node have indices that fit, and its other attributes are within their limits.
-/
def Fits (indexOf : String → Int64) (n : Node) : Prop :=
  n.WithinLimits ∧ ∀ s ∈ n.ownStrings, IsIndex (indexOf s)

/-- What fits a number of levels, taken apart at the outermost node.  Its children have to fit one
level less. -/
theorem fits_iff_children {n : Node} :
    (n.depth ≤ levels + 2 ∧ ∀ m ∈ n.walk, Fits indexOf m) ↔
      Fits indexOf n ∧ ∀ child ∈ n.children,
        child.depth ≤ levels + 1 ∧ ∀ m ∈ child.walk, Fits indexOf m := by
  rw [Node.depth_le_iff_children]
  constructor
  · rintro ⟨hdepth, hwalk⟩
    refine ⟨hwalk n (Node.mem_walk_self n), fun child hchild => ⟨hdepth child hchild, ?_⟩⟩
    exact fun m hm => hwalk m (Node.mem_walk.2 (.inr ⟨child, hchild, hm⟩))
  · rintro ⟨hself, hchildren⟩
    refine ⟨fun child hchild => (hchildren child hchild).1, fun m hm => ?_⟩
    rcases Node.mem_walk.1 hm with rfl | ⟨child, hchild, hm⟩
    · exact hself
    · exact (hchildren child hchild).2 m hm

/-- What fits a number of levels, for a node that nests no other. -/
theorem fits_leaf_iff {n : Node} (hleaf : n.kind.isContainer = false) :
    (n.depth ≤ levels + 1 ∧ ∀ m ∈ n.walk, Fits indexOf m) ↔ Fits indexOf n := by
  have hchildren : n.children = [] := by
    cases n <;> first | rfl | cases hleaf
  have hdepth := Node.depth_le_one_iff.2 hleaf
  rw [Node.walk_eq, hchildren]
  simp only [List.flatMap_nil, List.forall_mem_singleton]
  exact and_iff_right (by omega)

end

section

variable {follow : WritePointer} {indexOf : String → Int64}

/-- The description of the node can be written at every level that the node fits, and at no other.
This is the property that is carried through a tree of nodes. -/
def WrittenWhereFits (follow : WritePointer) (indexOf : String → Int64) (n : Node) : Prop :=
  ∀ (levels : Nat) (name : String),
    Writable follow (nodeUnion levels name) (ofNode (fun s => .int (indexOf s)) n) ↔
      n.depth ≤ levels + 1 ∧ ∀ m ∈ n.walk, Fits indexOf m

/-- A leaf is written where it fits.  Each attribute is matched with its place in the meta-schema,
and validity provides what the limits leave out, such as finite bounds. -/
theorem writtenWhereFits_leaf {n : Node} (hleaf : n.kind.isContainer = false)
    (hvalid : n.Valid) : WrittenWhereFits follow indexOf n := by
  intro levels name
  rw [fits_leaf_iff hleaf, Fits]
  cases n with
  | bool | pointer =>
      rw [ofNode, object, writable_leaf_iff rfl rfl]
      simp [attributes, writable_index_iff, Node.WithinLimits, Node.ownStrings]
  | int own min max =>
      rw [ofNode, object, writable_leaf_iff rfl rfl]
      simp [attributes, writable_index_iff, writable_intBound_iff, Node.WithinLimits,
        Node.ownStrings, and_comm]
  | fixed own min max precision =>
      obtain ⟨⟨hmin, hmax, hprecision⟩, -⟩ := Node.valid_fixed_iff.1 hvalid
      rw [ofNode, object, writable_leaf_iff rfl rfl]
      simp [attributes, writable_index_iff, writable_fixedBound_iff hmin,
        writable_fixedBound_iff hmax, writable_precision_iff hprecision, Node.WithinLimits,
        Node.ownStrings, and_comm]
  | enumeration e =>
      have hlength : 1 ≤ e.options.length :=
        List.length_pos_iff.2 (Node.valid_enumeration_iff.1 hvalid).1
      rw [ofNode, object, writable_leaf_iff rfl rfl]
      simp [attributes, writable_index_iff, writable_options_iff, hlength, Node.WithinLimits,
        Node.ownStrings, and_left_comm]
  | enumArray own minLength maxLength e =>
      have hlength : 1 ≤ e.options.length :=
        List.length_pos_iff.2 (Node.valid_enumArray_iff.1 hvalid).2.1
      rw [ofNode, object, writable_leaf_iff rfl rfl]
      simp only [attributes, List.forall₂_cons, List.forall₂_nil_left_iff, writable_index_iff,
        writable_length_iff, writable_options_iff, hlength, Node.WithinLimits, Node.ownStrings,
        List.forall_mem_cons]
      tauto
  | optional | array | object | union => cases hleaf

/-- A node that nests others is neither offered at the innermost level nor fits it.  Above, what
it describes in the order of the fields is written where it stands. -/
theorem writtenWhereFits_container {n : Node} {rest : Entries Value}
    (hcontainer : n.kind.isContainer = true)
    (hnode : ofNode (fun s => .int (indexOf s)) n = .object (("kind", .string n.kind.tag) :: rest))
    (hkeys : Entries.keys rest = (attributes n.kind).map Node.name ++
      (contents (fun name => .bool name) n.kind).map Node.name)
    (h : ∀ levels, List.Forall₂ (fun field entry => Writable follow field entry.2)
        (attributes n.kind ++ contents (nodeUnion levels) n.kind) rest ↔
      Fits indexOf n ∧ ∀ child ∈ n.children,
        child.depth ≤ levels + 1 ∧ ∀ m ∈ child.walk, Fits indexOf m) :
    WrittenWhereFits follow indexOf n := by
  intro levels name
  rw [hnode]
  cases levels with
  | zero =>
      rw [writable_nodeUnion_iff, mem_kinds_zero]
      refine iff_of_false (fun hwritten => ?_) fun hfits => ?_
      · rw [hwritten.1] at hcontainer
        cases hcontainer
      · rw [Node.depth_le_one_iff.1 hfits.1] at hcontainer
        cases hcontainer
  | succ levels =>
      rw [writable_nodeUnion_iff_forall₂ (hkeys.trans (names_kindFields levels n.kind).symm),
        fits_iff_children, kindFields, ← h levels]
      exact and_iff_right (mem_kinds_succ levels n.kind)

/-- Of an optional node the name has to fit.  Like the lemmas that follow, this is about the node
itself, and its children are left to `fits_iff_children`. -/
theorem fits_optional_iff {own : String} {inner : Node} :
    Fits indexOf (.optional own inner) ↔ IsIndex (indexOf own) := by
  simp [Fits, Node.WithinLimits, Node.ownStrings]

theorem fits_array_iff {own : String} {minLength maxLength : UInt32} {item : Node} :
    Fits indexOf (.array own minLength maxLength item) ↔
      IsIndex (indexOf own) ∧ minLength.toNat ≤ 65535 ∧ maxLength.toNat ≤ 65535 := by
  simp [Fits, Node.WithinLimits, Node.ownStrings, and_comm]

theorem fits_object_iff {own : String} {fields : List Node} :
    Fits indexOf (.object own fields) ↔ IsIndex (indexOf own) ∧ fields.length ≤ 255 := by
  simp [Fits, Node.WithinLimits, Node.ownStrings, and_comm]

/-- Of a union its name, the name and the options of the discriminator, and the numbers of options
and of fields have to fit. -/
theorem fits_union_iff {own : String} {discriminator : Enumeration}
    {variants : Entries (List Node)} :
    Fits indexOf (.union own discriminator variants) ↔
      IsIndex (indexOf own) ∧ IsIndex (indexOf discriminator.name) ∧
        (discriminator.options.length ≤ 256 ∧
          ∀ option ∈ discriminator.options, IsIndex (indexOf option)) ∧
        ∀ entry ∈ variants, entry.2.length ≤ 255 := by
  simp only [Fits, Node.WithinLimits, Node.ownStrings, List.forall_mem_cons]
  tauto

theorem writtenWhereFits_optional (own : String) {inner : Node}
    (ih : WrittenWhereFits follow indexOf inner) :
    WrittenWhereFits follow indexOf (.optional own inner) := by
  refine writtenWhereFits_container rfl rfl rfl fun levels => ?_
  rw [fits_optional_iff]
  simp [Node.kind, attributes, contents, writable_index_iff, Node.children, ih levels "inner"]

/-- The bounds of an array are written before its item.  Both are 32-bit words in the node and have
16 bits in a token. -/
theorem writtenWhereFits_array (own : String) (minLength maxLength : UInt32) {item : Node}
    (ih : WrittenWhereFits follow indexOf item) :
    WrittenWhereFits follow indexOf (.array own minLength maxLength item) := by
  refine writtenWhereFits_container rfl rfl rfl fun levels => ?_
  rw [fits_array_iff]
  simp [Node.kind, attributes, contents, writable_index_iff, writable_length_iff, Node.children,
    ih levels "item", and_assoc]

/-- An object is written as the list of its fields, each one level further down. -/
theorem writtenWhereFits_object (own : String) {fields : List Node}
    (ih : ∀ field ∈ fields, WrittenWhereFits follow indexOf field) :
    WrittenWhereFits follow indexOf (.object own fields) := by
  refine writtenWhereFits_container rfl rfl rfl fun levels => ?_
  have hfields : (∀ field ∈ fields, Writable follow (nodeUnion levels "field")
      (ofNode (fun s => .int (indexOf s)) field)) ↔
        ∀ field ∈ fields, field.depth ≤ levels + 1 ∧ ∀ m ∈ field.walk, Fits indexOf m :=
    forall₂_congr fun field hfield => ih field hfield levels "field"
  rw [fits_object_iff, ofNodes_eq]
  simp [Node.kind, attributes, contents, writable_index_iff, writable_nodeList_iff, Node.children,
    hfields, and_assoc]

/-- The variants of a valid union are written where their fields fit.  They are described in the
order of the options, and validity says that these are all the variants there are. -/
theorem writable_variants_iff (own : String) (discriminator : Enumeration)
    {variants : Entries (List Node)} (hvalid : (Node.union own discriminator variants).Valid)
    (ih : ∀ entry ∈ variants, ∀ field ∈ entry.2, WrittenWhereFits follow indexOf field)
    (levels : Nat) :
    Writable follow (.array "variants" 1 256 (nodeList "variant" (nodeUnion levels "field")))
        (.array (discriminator.options.map fun option =>
          ofVariant (fun s => .int (indexOf s)) variants option)) ↔
      discriminator.options.length ≤ 256 ∧ (∀ entry ∈ variants, entry.2.length ≤ 255) ∧
        ∀ child ∈ (Node.union own discriminator variants).children,
          child.depth ≤ levels + 1 ∧ ∀ m ∈ child.walk, Fits indexOf m := by
  obtain ⟨⟨hne, hnodup⟩, hperm, -⟩ := Node.valid_union_iff.1 hvalid
  have hlength : 1 ≤ discriminator.options.length := List.length_pos_iff.2 hne
  have hfields : ∀ option ∈ discriminator.options,
      Writable follow (nodeList "variant" (nodeUnion levels "field"))
          (ofVariant (fun s => .int (indexOf s)) variants option) ↔
        ((Entries.get? variants option).getD []).length ≤ 255 ∧
          ∀ field ∈ (Entries.get? variants option).getD [],
            field.depth ≤ levels + 1 ∧ ∀ m ∈ field.walk, Fits indexOf m := by
    intro option _
    rw [ofVariant_eq, writable_nodeList_iff, List.length_map, List.forall_mem_map]
    refine and_congr_right fun _ => forall₂_congr fun field hfield => ?_
    obtain ⟨entry, hentry, hmem⟩ := Entries.exists_mem_of_mem_getD hfield
    exact ih entry hentry field hmem levels "field"
  -- What the options find is all that is stored, since the union is valid.
  rw [writable_array_iff, List.length_map, List.forall_mem_map, forall₂_congr hfields,
    ← Node.forall_option_iff hnodup hperm fun fields => fields.length ≤ 255]
  simp only [Node.mem_children_union]
  constructor
  · rintro ⟨⟨-, hle⟩, hoptions⟩
    refine ⟨hle, fun option hoption => (hoptions option hoption).1, ?_⟩
    rintro child ⟨option, hoption, hchild⟩
    exact (hoptions option hoption).2 child hchild
  · rintro ⟨hle, hlengths, hchildren⟩
    refine ⟨⟨hlength, hle⟩, fun option hoption => ⟨hlengths option hoption, ?_⟩⟩
    exact fun field hfield => hchildren field ⟨option, hoption, hfield⟩

/-- A union is written as its discriminator and the lists of fields of its variants. -/
theorem writtenWhereFits_union (own : String) (discriminator : Enumeration)
    {variants : Entries (List Node)} (hvalid : (Node.union own discriminator variants).Valid)
    (ih : ∀ entry ∈ variants, ∀ field ∈ entry.2, WrittenWhereFits follow indexOf field) :
    WrittenWhereFits follow indexOf (.union own discriminator variants) := by
  refine writtenWhereFits_container rfl rfl rfl fun levels => ?_
  have hlength : 1 ≤ discriminator.options.length :=
    List.length_pos_iff.2 (Node.valid_union_iff.1 hvalid).1.1
  have hwritten := @writable_variants_iff follow _ own _ _ hvalid ih levels
  rw [fits_union_iff]
  simp only [Node.kind, attributes, contents, List.cons_append, List.nil_append, List.forall₂_cons,
    List.forall₂_nil_left_iff, hwritten, writable_index_iff, writable_options_iff]
  tauto

/-- **The description of a valid node can be written at the levels that the node fits**, and at no
other.  The equivalence is carried through the tree as a whole, so the exact condition comes out of
it and not only a sufficient one. -/
theorem writtenWhereFits {n : Node} (hvalid : n.Valid) : WrittenWhereFits follow indexOf n := by
  -- The induction follows the contents of a node, the fields of every stored variant included.
  induction n with
  | bool | int | fixed | enumeration | enumArray | pointer =>
      exact writtenWhereFits_leaf rfl hvalid
  | optional own inner ih =>
      exact writtenWhereFits_optional own (ih (Node.valid_optional_iff.1 hvalid))
  | array own minLength maxLength item ih =>
      exact writtenWhereFits_array own minLength maxLength (ih (Node.valid_array_iff.1 hvalid).2)
  | object own fields ih =>
      have hfields := (Node.valid_object_iff.1 hvalid).2
      exact writtenWhereFits_object own fun field hfield => ih field hfield (hfields field hfield)
  | union own discriminator variants ih =>
      have hvariants := (Node.valid_union_iff.1 hvalid).2.2
      exact writtenWhereFits_union own discriminator hvalid fun entry hentry field hfield =>
        ih entry hentry field hfield ((hvariants entry hentry).2 field hfield)

end

/-- The description of a schema can be written when its lists are short enough and each of its
fields can be written. -/
theorem exists_writeData_iff {depth pointerDepth : Nat} {table : StringTable}
    {fields : List Node} :
    (∃ bits, writeData (MetaSchema.fields depth) (ofSchema table fields) pointerDepth = .ok bits) ↔
      table.toBytes.length ≤ 65535 ∧ fields.length ≤ 255 ∧ ∀ field ∈ fields,
        Writable (followWrite (MetaSchema.fields depth) pointerDepth pointerDepth)
          (nodeUnion (depth - 1) "field") (ofNode table.indexValue field) := by
  have hversion : ∀ follow, Writable follow (.object "meta" [.int "version" 0 255])
      (.object [("version", .int version)]) := by
    intro follow
    rw [writable_object_iff, List.forall_mem_singleton]
    exact writable_int_iff.2 (by decide)
  have hstrings : ∀ follow, Writable follow (.array "strings" 0 65535 (.int "byte" 0 255))
      (.array (table.toBytes.map fun byte => .int (Int64.ofInt byte.toNat))) ↔
        table.toBytes.length ≤ 65535 := by
    intro follow
    rw [writable_array_iff, List.length_map, List.forall_mem_map]
    constructor
    · exact fun h => h.1.2
    · refine fun h => ⟨⟨Nat.zero_le _, h⟩, fun byte _ => writable_int_iff.2 ?_⟩
      have hbyte := byte.toNat_lt
      have hcast : (Int64.ofInt byte.toNat).toInt = byte.toNat :=
        Int64.toInt_ofInt_of_le (by omega) (by omega)
      rw [Int64.le_iff_toInt_le, Int64.le_iff_toInt_le, hcast]
      show (0 : Int) ≤ _ ∧ _ ≤ (255 : Int)
      omega
  rw [writeData, ofSchema, Value.asObject?]
  dsimp only
  rw [exists_writeFields_iff, Entries.forall_getOrNull_iff (by rfl) (nodup_names_fields depth),
    MetaSchema.fields]
  generalize followWrite _ pointerDepth pointerDepth = follow
  simp only [List.forall₂_cons, List.forall₂_nil_left_iff, and_true]
  rw [hstrings, writable_nodeList_iff, List.length_map, List.forall_mem_map]
  constructor
  · rintro ⟨-, hfields, hbytes⟩
    exact ⟨hbytes, hfields⟩
  · rintro ⟨hbytes, hfields⟩
    exact ⟨hversion follow, hfields, hbytes⟩

end MetaSchema

/-! ### Strings of a schema -/

section

variable {name : String} {fields : List Node}

theorem mem_tableOf {s : String} :
    s ∈ (Describe.tableOf name fields).entries ↔ s ∈ schemaStrings name fields := by
  rw [Describe.tableOf, StringTable.mem_addAll]
  simp [StringTable.empty]

/-- No string is twice in the table, since a string that is there is found again when it is
requested. -/
theorem nodup_tableOf : (Describe.tableOf name fields).entries.Nodup :=
  StringTable.nodup_addAll List.nodup_nil _

/-- The name of the schema is always in the table, so it is never empty. -/
theorem tableOf_ne_nil : (Describe.tableOf name fields).entries ≠ [] := by
  intro h
  have hname : name ∈ (Describe.tableOf name fields).entries :=
    mem_tableOf.2 List.mem_cons_self
  rw [h] at hname
  cases hname

/-- The name of the schema is the first entry. -/
theorem idxOf_name_tableOf : (Describe.tableOf name fields).entries.idxOf name = 0 := by
  rw [Describe.tableOf, schemaStrings, StringTable.addAll_cons,
    StringTable.idxOf_addAll (StringTable.mem_add.2 (.inr rfl))]
  exact List.idxOf_cons_self

/-- As sets, the entries are the strings of the schema.  With `nodup_tableOf` this gives the length
of the table without its order. -/
theorem toFinset_tableOf :
    (Describe.tableOf name fields).entries.toFinset = (schemaStrings name fields).toFinset := by
  ext s
  rw [List.mem_toFinset, List.mem_toFinset, mem_tableOf]

theorem length_tableOf : (Describe.tableOf name fields).entries.length =
    (schemaStrings name fields).toFinset.card := by
  rw [← toFinset_tableOf, List.toFinset_card_of_nodup nodup_tableOf]

/-- The octets of the table are those of the distinct strings with one octet between any two. -/
theorem length_toBytes_tableOf : (Describe.tableOf name fields).toBytes.length =
    ∑ s ∈ (schemaStrings name fields).toFinset, StringTable.octets s +
      ((schemaStrings name fields).toFinset.card - 1) := by
  rw [StringTable.length_toBytes tableOf_ne_nil nodup_tableOf, toFinset_tableOf]

/-- **Every index fits exactly when there are at most 4096 distinct strings.**  The index of the
schema's name, which the token does not contain, is the smallest; so leaving it out makes no
difference. -/
theorem isIndex_tableOf_iff :
    (∀ m ∈ Node.walkList fields, ∀ s ∈ m.ownStrings,
      MetaSchema.IsIndex (Int64.ofInt ((Describe.tableOf name fields).entries.idxOf s))) ↔
      (schemaStrings name fields).toFinset.card ≤ 4096 := by
  rw [← length_tableOf]
  have hcast : ∀ i : Nat, i ≤ 4096 → (Int64.ofInt i).toInt = i := fun i hi =>
    Int64.toInt_ofInt_of_le (by omega) (by omega)
  constructor
  · intro h
    by_contra hlt
    rw [Nat.not_le] at hlt
    have hmem := mem_tableOf.1 (List.getElem_mem hlt)
    have hindex := (@nodup_tableOf name fields).idxOf_getElem 4096 hlt
    generalize (Describe.tableOf name fields).entries[4096] = s at hmem hindex
    rw [schemaStrings, List.mem_cons, List.mem_flatMap] at hmem
    rcases hmem with rfl | ⟨m, hm, hs⟩
    · rw [idxOf_name_tableOf] at hindex
      cases hindex
    · have hle := (h m hm s hs).2
      rw [hindex, Int64.le_iff_toInt_le, hcast 4096 le_rfl] at hle
      exact absurd hle (by decide)
  · intro hle m hm s hs
    have hmem : s ∈ (Describe.tableOf name fields).entries :=
      mem_tableOf.2 (List.mem_cons_of_mem _ (List.mem_flatMap.2 ⟨m, hm, hs⟩))
    have hlt := List.idxOf_lt_length_of_mem hmem
    generalize (Describe.tableOf name fields).entries.idxOf s = i at hlt
    rw [MetaSchema.IsIndex, Int64.le_iff_toInt_le, Int64.le_iff_toInt_le, hcast i (by omega)]
    show (0 : Int) ≤ _ ∧ _ ≤ (4095 : Int)
    omega

end

/-! ### Encodable schemas -/

theorem MetaSchema.ofDepth_eq_ok_iff {depth : Nat} {layout : List Node} :
    ofDepth depth = .ok layout ↔ depth ≤ 7 ∧ layout = fields depth := by
  rw [ofDepth, maxDepth]
  split
  · next h => simp [Nat.not_le.2 h]
  · next h => simp [Nat.not_lt.1 h, eq_comm]

/-- The check of depths stops at the first field that is too deep, and passes when there is none. -/
theorem checkDepths_eq_ok_iff {maxDepth : Nat} {fields : List Node} :
    checkDepths maxDepth fields = .ok () ↔ ∀ field ∈ fields, field.depth ≤ maxDepth := by
  induction fields with
  | nil => simp [checkDepths]
  | cons field rest ih =>
      rw [checkDepths, List.forall_mem_cons, ← ih]
      split
      · next h => simp [Nat.not_le.2 h]
      · next h => exact (and_iff_right (Nat.not_lt.1 h)).symm

/-- What a schema needs for a packed token.  Each field is one limit of the format, stated of the
schema and without reference to how it is described. -/
structure Encodable (name : String) (fields : List Node) (options : CodecOptions) : Prop where
  /-- The schema is valid. -/
  valid : Schema.validate ⟨name, fields⟩ = .ok ()
  /-- The bound on depth is one that tokens support. -/
  supported : options.maxDepth ≤ 7
  /-- No field is deeper than the bound. -/
  depth : ∀ field ∈ fields, field.depth ≤ options.maxDepth
  /-- No string contains the separator U+001F. -/
  separator : ∀ s ∈ schemaStrings name fields, StringTable.separator ∉ s.toList
  /-- There are at most 4096 distinct strings. -/
  strings : (schemaStrings name fields).toFinset.card ≤ 4096
  /-- The distinct strings, with one octet between any two, take at most 65535 octets. -/
  octets : ∑ s ∈ (schemaStrings name fields).toFinset, StringTable.octets s +
    ((schemaStrings name fields).toFinset.card - 1) ≤ 65535
  /-- There are at most 255 fields. -/
  length : fields.length ≤ 255
  /-- The attributes of every node are within their limits. -/
  limits : ∀ m ∈ Node.walkList fields, m.WithinLimits
  /-- The fixed-point attributes are on the grid of tokens. -/
  onGrid : ∀ m ∈ Node.walkList fields, m.OnGrid

/-- A token is the text of what is written for the description of the schema.  This takes encoding
apart into its steps; all of them have conditions that are known by now. -/
theorem encodePacked_eq_ok_iff {name : String} {fields : List Node} {options : CodecOptions}
    {token : String} : encodePacked name fields options = .ok token ↔
      (Schema.validate ⟨name, fields⟩ = .ok () ∧ options.maxDepth ≤ 7 ∧
        (∀ field ∈ fields, field.depth ≤ options.maxDepth) ∧
        (∀ s ∈ schemaStrings name fields, StringTable.separator ∉ s.toList) ∧
        ∀ m ∈ Node.walkList fields, m.OnGrid) ∧
      ∃ bits, Packing.writeData (MetaSchema.fields options.maxDepth)
          (Describe.ofSchema (Describe.tableOf name fields) fields) options.pointerDepth =
            .ok bits ∧
        token = Base64Url.encode (Bits.toBytes bits) := by
  rw [encodePacked, unit_bind_eq_ok_iff]
  simp only [bind_eq_ok_iff, MetaSchema.ofDepth_eq_ok_iff, Describe.schema_eq_ok_iff, encodeData,
    packData]
  constructor
  · rintro ⟨hvalid, layout, ⟨hsupported, rfl⟩, ⟨⟩, hdepth, found, ⟨hstrings, hgrid, rfl⟩, bytes,
      ⟨bits, hbits, hbytes⟩, htoken⟩
    cases hbytes
    cases htoken
    exact ⟨⟨hvalid, hsupported, checkDepths_eq_ok_iff.1 hdepth, hstrings, hgrid⟩, bits, hbits, rfl⟩
  · rintro ⟨⟨hvalid, hsupported, hdepth, hstrings, hgrid⟩, bits, hbits, rfl⟩
    exact ⟨hvalid, _, ⟨hsupported, rfl⟩, (), checkDepths_eq_ok_iff.2 hdepth, _,
      ⟨hstrings, hgrid, rfl⟩, _, ⟨bits, hbits, rfl⟩, rfl⟩

/-- **The description of a valid schema can be written exactly when it is within the limits.** The
strings are the one part where a limit on single nodes becomes one on the whole schema. -/
theorem exists_writeData_ofSchema_iff {name : String} {fields : List Node}
    {options : CodecOptions} (hvalid : Schema.validate ⟨name, fields⟩ = .ok ())
    (hdepth : ∀ field ∈ fields, field.depth ≤ options.maxDepth) :
    (∃ bits, Packing.writeData (MetaSchema.fields options.maxDepth)
        (Describe.ofSchema (Describe.tableOf name fields) fields) options.pointerDepth =
          .ok bits) ↔
      (Describe.tableOf name fields).toBytes.length ≤ 65535 ∧ fields.length ≤ 255 ∧
        (∀ m ∈ Node.walkList fields, m.WithinLimits) ∧
        ∀ m ∈ Node.walkList fields, ∀ s ∈ m.ownStrings,
          MetaSchema.IsIndex (Int64.ofInt ((Describe.tableOf name fields).entries.idxOf s)) := by
  obtain ⟨-, hfields⟩ := Schema.validate_eq_ok_iff.1 hvalid
  rw [MetaSchema.exists_writeData_iff]
  refine and_congr_right fun _ => and_congr_right fun _ => ?_
  -- The depth is known to fit, so fitting a level comes down to the attributes.
  have hwritten : ∀ field ∈ fields,
      Packing.Writable (Packing.followWrite (MetaSchema.fields options.maxDepth)
          options.pointerDepth options.pointerDepth)
        (MetaSchema.nodeUnion (options.maxDepth - 1) "field")
        (Describe.ofNode (Describe.tableOf name fields).indexValue field) ↔
      ∀ m ∈ field.walk, MetaSchema.Fits
        (fun s => Int64.ofInt ((Describe.tableOf name fields).entries.idxOf s)) m := by
    intro field hfield
    have hle := hdepth field hfield
    have hpos := field.one_le_depth
    refine (MetaSchema.writtenWhereFits (hfields field hfield) _ _).trans (and_iff_right ?_)
    omega
  rw [forall₂_congr hwritten]
  simp only [Node.mem_walkList]
  constructor
  · intro h
    constructor
    · rintro m ⟨field, hfield, hm⟩
      exact (h field hfield m hm).1
    · rintro m ⟨field, hfield, hm⟩
      exact (h field hfield m hm).2
  · rintro ⟨hlimits, hindices⟩ field hfield m hm
    exact ⟨hlimits m ⟨field, hfield, hm⟩, hindices m ⟨field, hfield, hm⟩⟩

/-- What has a token is encodable: each step of encoding that succeeds gives one of the conditions.
-/
theorem encodable_of_encodePacked {name : String} {fields : List Node} {options : CodecOptions}
    {token : String} (h : encodePacked name fields options = .ok token) :
    Encodable name fields options := by
  obtain ⟨⟨hvalid, hsupported, hdepth, hseparator, hgrid⟩, bits, hbits, -⟩ :=
    encodePacked_eq_ok_iff.1 h
  obtain ⟨hoctets, hlength, hlimits, hindices⟩ :=
    (exists_writeData_ofSchema_iff hvalid hdepth).1 ⟨bits, hbits⟩
  rw [length_toBytes_tableOf] at hoctets
  exact ⟨hvalid, hsupported, hdepth, hseparator, isIndex_tableOf_iff.1 hindices, hoctets, hlength,
    hlimits, hgrid⟩

/-- What is encodable has a token: the conditions let each step of encoding succeed. -/
theorem Encodable.exists_token {name : String} {fields : List Node} {options : CodecOptions}
    (h : Encodable name fields options) :
    ∃ token, encodePacked name fields options = .ok token := by
  have hoctets := h.octets
  rw [← length_toBytes_tableOf] at hoctets
  obtain ⟨bits, hbits⟩ := (exists_writeData_ofSchema_iff h.valid h.depth).2
    ⟨hoctets, h.length, h.limits, isIndex_tableOf_iff.2 h.strings⟩
  exact ⟨_, encodePacked_eq_ok_iff.2
    ⟨⟨h.valid, h.supported, h.depth, h.separator, h.onGrid⟩, bits, hbits, rfl⟩⟩

/-- **A schema has a packed token exactly when it is encodable.**  So a schema that is refused
violates one of the listed limits, and one that violates none is never refused. -/
theorem exists_encodePacked_iff (name : String) (fields : List Node) (options : CodecOptions) :
    (∃ token, encodePacked name fields options = .ok token) ↔ Encodable name fields options :=
  ⟨fun ⟨_, h⟩ => encodable_of_encodePacked h, Encodable.exists_token⟩

end FieldGrammar
