import Mathlib
import FieldGrammar.Proofs.Description
import FieldGrammar.Proofs.MetaSchemas
import FieldGrammar.Proofs.Rebuilding
import FieldGrammar.Proofs.Rewriting

/-!
# A description that was read is that of the rebuilt node

A description that was read against the meta-schema has the keys and the kinds of values that
rebuilding expects.  If a node is rebuilt from it, it is the description of that node: the
entries of a table that was read are distinct, so an index can be recovered from its string, and
no other part of a description is lost in rebuilding.

## Main statements

* `MetaSchema.exists_of_readable_nodeUnion` — what is read at a level
* `Rebuild.recognizes` — what a node is rebuilt from is the description of that node
* `Rebuild.exists_describesSchema` — what was read describes the schema that is rebuilt from it
-/

namespace FieldGrammar

namespace MetaSchema

open Packing

/-- **What is read at a level** is an object with one of the kinds of that level and the fields of
that kind.  So rebuilding meets one of ten shapes, and knows which by the tag. -/
theorem exists_of_readable_nodeUnion {follow : ReadPointer} {levels : Nat} {name : String}
    {value : Value} (h : Readable follow (nodeUnion levels name) value) :
    ∃ kind ∈ kinds levels, ∃ pairs, value = .object (("kind", .string kind.tag) :: pairs) ∧
      ReadableFields follow (kindFields levels kind) pairs := by
  obtain ⟨r, r', h⟩ := h
  rw [nodeUnion_eq, unionOver] at h
  obtain ⟨option, s, pairs, hoption, hpairs, rfl⟩ := readNode_union_eq_ok_iff.1 h
  obtain ⟨kind, hkind, rfl⟩ := List.mem_map.1 (mem_of_readOption hoption)
  rw [get?_variants hkind, Option.getD_some] at hpairs
  refine ⟨kind, hkind, pairs, ?_, readableFields_of_readFields hpairs⟩
  rw [insertAll_of_readFields (nodup_names levels kind) (kindName_notMem_names levels kind) hpairs]
  rfl

end MetaSchema

namespace Rebuild

open Describe Packing

section

variable {table : StringTable} {follow : ReadPointer} {entries : Entries Value} {key : String}

/-! ### Attributes -/

/-- An integer at which a string was found is the index of the string.  The entries of the table are
distinct, so there is no other index for it. -/
theorem of_string (hnodup : table.entries.Nodup) {i : Int64} {s : String}
    (h : string table (.int i) = .ok s) : Value.int i = table.indexValue s ∧ s ∈ table.entries := by
  rw [string, Value.asInt?] at h
  dsimp only at h
  split at h
  · next hpos =>
    split at h
    · next found hfound =>
      cases h
      rw [StringTable.entry] at hfound
      split at hfound
      · next entry hentry =>
        cases hfound
        obtain ⟨hlt, rfl⟩ := List.getElem?_eq_some_iff.1 hentry
        refine ⟨?_, List.getElem_mem hlt⟩
        rw [StringTable.indexValue, hnodup.idxOf_getElem, Int.toNat_of_nonneg hpos,
          Int64.ofInt_toInt]
      · cases hfound
    · cases h
  · cases h

/-- What was read for a string is the index of the string that it was rebuilt to. -/
theorem eq_indexValue_of_readable (hnodup : table.entries.Nodup) {name s : String} {value : Value}
    (hread : Readable follow (MetaSchema.index name) value) (h : string table value = .ok s) :
    value = table.indexValue s ∧ s ∈ table.entries := by
  obtain ⟨i, rfl⟩ := exists_int_of_readable hread
  exact of_string hnodup h

/-- What was read for a length is the length that it was rebuilt to. -/
theorem eq_length_of_readable {name : String} {value : Value} {n : UInt32}
    (hread : Readable follow (MetaSchema.length name) value)
    (hget : Entries.get? entries key = some value) (h : lengthAt entries key = .ok n) :
    value = Describe.length n := by
  obtain ⟨i, rfl⟩ := exists_int_of_readable hread
  have hint : intAt entries key = .ok i := by
    rw [intAt, hget]
    rfl
  rw [lengthAt, hint, ok_bind] at h
  split at h
  · next hrange =>
    cases h
    obtain ⟨hpos, hlt⟩ := hrange
    have hsize : i.toInt.toNat < UInt32.size := by omega
    rw [Describe.length, UInt32.toNat_ofNat_of_lt' hsize, Int.toNat_of_nonneg hpos,
      Int64.ofInt_toInt]
  · cases h

/-- What was read for the options of an enumeration are the indices of those that it was rebuilt to.
-/
theorem eq_ofOptions_of_readable (hnodup : table.entries.Nodup) {name : String} {value : Value}
    {e : Enumeration} (hread : Readable follow (MetaSchema.indexList "options") value)
    (hget : Entries.get? entries "options" = some value)
    (h : enumeration table name entries = .ok e) :
    e.name = name ∧ value = ofOptions table.indexValue e ∧
      ∀ option ∈ e.options, option ∈ table.entries := by
  obtain ⟨items, rfl, hitems⟩ := exists_array_of_readable hread
  have hlist : listAt entries "options" = .ok items := by
    rw [listAt, hget]
    rfl
  rw [enumeration, hlist, ok_bind, bind_eq_ok_iff] at h
  obtain ⟨options, hoptions, h⟩ := h
  cases h
  have hstrings := forall₂_of_mapM hoptions
  clear hread hget hlist hoptions
  suffices hmap : items = options.map table.indexValue ∧ ∀ option ∈ options, option ∈ table.entries
    from ⟨rfl, congrArg Value.array hmap.1, hmap.2⟩
  induction hstrings with
  | nil => exact ⟨rfl, by simp⟩
  | cons hfirst _ ih =>
      obtain ⟨hitem, hrest⟩ := List.forall_mem_cons.1 hitems
      obtain ⟨hindex, hmem⟩ := eq_indexValue_of_readable hnodup hitem hfirst
      obtain ⟨hmap, hmems⟩ := ih hrest
      exact ⟨by rw [List.map_cons, ← hindex, ← hmap], List.forall_mem_cons.2 ⟨hmem, hmems⟩⟩

/-! ### Nodes -/

/-- The value describes the node, with indices into the table.  The strings of the node are in the
table, and the value is the one that describing would give. -/
structure Describes (table : StringTable) (value : Value) (n : Node) : Prop where
  eq : value = ofNode table.indexValue n
  strings : ∀ m ∈ n.walk, ∀ s ∈ m.ownStrings, s ∈ table.entries

/-- Every valid node of the kind that is rebuilt from what was read against these fields is
described by it.  The fields are a parameter, since those of a container depend on the level. -/
def RecognizesKind (table : StringTable) (follow : ReadPointer) (fields : List Node) (kind : Kind) :
    Prop :=
  ∀ (pairs : List (String × Value)) (n : Node), ReadableFields follow fields pairs →
    node table (.object (("kind", .string kind.tag) :: pairs)) = .ok n → n.Valid →
      Describes table (.object (("kind", .string kind.tag) :: pairs)) n

/-! #### Kinds without nested nodes -/

section

variable (hnodup : table.entries.Nodup)

include hnodup

/-- A Boolean has a name and nothing else. -/
theorem recognizes_bool : RecognizesKind table follow (MetaSchema.attributes .bool) .bool := by
  intro pairs n hpairs h _
  obtain ⟨name, rest, rfl, hname, hrest⟩ := hpairs.cons
  cases hrest.nil
  rw [node, kindAt_cons, ok_bind] at h
  obtain ⟨own, hown, h⟩ := bind_eq_ok_iff.1 h
  cases h
  obtain ⟨rfl, hmem⟩ := eq_indexValue_of_readable hnodup hname hown
  exact ⟨rfl, (Node.forall_mem_walk_leaf_iff rfl).2 (List.forall_mem_singleton.2 hmem)⟩

/-- An integer is known by its name and bounds, which are rebuilt as they were read. -/
theorem recognizes_int : RecognizesKind table follow (MetaSchema.attributes .int) .int := by
  intro pairs n hpairs h _
  obtain ⟨name, rest, rfl, hname, hrest⟩ := hpairs.cons
  obtain ⟨min, rest, rfl, hmin, hrest₂⟩ := hrest.cons
  obtain ⟨max, rest, rfl, hmax, hrest₃⟩ := hrest₂.cons
  cases hrest₃.nil
  obtain ⟨lo, rfl⟩ := exists_int_of_readable hmin
  obtain ⟨hi, rfl⟩ := exists_int_of_readable hmax
  rw [node, kindAt_cons, ok_bind] at h
  obtain ⟨own, hown, h⟩ := bind_eq_ok_iff.1 h
  cases h
  obtain ⟨rfl, hmem⟩ := eq_indexValue_of_readable hnodup hname hown
  exact ⟨rfl, (Node.forall_mem_walk_leaf_iff rfl).2 (List.forall_mem_singleton.2 hmem)⟩

/-- A number with a point is known by its name, bounds and precision. -/
theorem recognizes_fixed : RecognizesKind table follow (MetaSchema.attributes .fixed) .fixed := by
  intro pairs n hpairs h _
  obtain ⟨name, rest, rfl, hname, hrest⟩ := hpairs.cons
  obtain ⟨min, rest, rfl, hmin, hrest₂⟩ := hrest.cons
  obtain ⟨max, rest, rfl, hmax, hrest₃⟩ := hrest₂.cons
  obtain ⟨precision, rest, rfl, hprecision, hrest₄⟩ := hrest₃.cons
  cases hrest₄.nil
  obtain ⟨lo, rfl⟩ := exists_fixed_of_readable hmin
  obtain ⟨hi, rfl⟩ := exists_fixed_of_readable hmax
  obtain ⟨step, rfl⟩ := exists_fixed_of_readable hprecision
  rw [node, kindAt_cons, ok_bind] at h
  obtain ⟨own, hown, h⟩ := bind_eq_ok_iff.1 h
  cases h
  obtain ⟨rfl, hmem⟩ := eq_indexValue_of_readable hnodup hname hown
  exact ⟨rfl, (Node.forall_mem_walk_leaf_iff rfl).2 (List.forall_mem_singleton.2 hmem)⟩

theorem recognizes_enumeration :
    RecognizesKind table follow (MetaSchema.attributes .enumeration) .enumeration := by
  intro pairs n hpairs h _
  obtain ⟨name, rest, rfl, hname, hrest⟩ := hpairs.cons
  obtain ⟨options, rest, rfl, hoptions, hrest₂⟩ := hrest.cons
  cases hrest₂.nil
  rw [node, kindAt_cons, ok_bind] at h
  obtain ⟨own, hown, h⟩ := bind_eq_ok_iff.1 h
  obtain ⟨e, he, h⟩ := bind_eq_ok_iff.1 h
  cases h
  obtain ⟨rfl, hmem⟩ := eq_indexValue_of_readable hnodup hname hown
  obtain ⟨rfl, rfl, hmems⟩ := eq_ofOptions_of_readable hnodup hoptions rfl he
  exact ⟨rfl, (Node.forall_mem_walk_leaf_iff rfl).2 (List.forall_mem_cons.2 ⟨hmem, hmems⟩)⟩

/-- An array of options is known by two names, its bounds and its options.  The lengths were read
within 16 bits, so they are those of the node. -/
theorem recognizes_enumArray :
    RecognizesKind table follow (MetaSchema.attributes .enumArray) .enumArray := by
  intro pairs n hpairs h _
  obtain ⟨name, rest, rfl, hname, hrest⟩ := hpairs.cons
  obtain ⟨min, rest, rfl, hmin, hrest₂⟩ := hrest.cons
  obtain ⟨max, rest, rfl, hmax, hrest₃⟩ := hrest₂.cons
  obtain ⟨enumName, rest, rfl, henum, hrest₄⟩ := hrest₃.cons
  obtain ⟨options, rest, rfl, hoptions, hrest₅⟩ := hrest₄.cons
  cases hrest₅.nil
  rw [node, kindAt_cons, ok_bind] at h
  obtain ⟨own, hown, h⟩ := bind_eq_ok_iff.1 h
  obtain ⟨ownEnum, hownEnum, h⟩ := bind_eq_ok_iff.1 h
  obtain ⟨minLength, hminLength, h⟩ := bind_eq_ok_iff.1 h
  obtain ⟨maxLength, hmaxLength, h⟩ := bind_eq_ok_iff.1 h
  obtain ⟨e, he, h⟩ := bind_eq_ok_iff.1 h
  cases h
  obtain ⟨rfl, hmem⟩ := eq_indexValue_of_readable hnodup hname hown
  obtain ⟨rfl, hmem'⟩ := eq_indexValue_of_readable hnodup henum hownEnum
  obtain rfl := eq_length_of_readable hmin rfl hminLength
  obtain rfl := eq_length_of_readable hmax rfl hmaxLength
  obtain ⟨rfl, rfl, hmems⟩ := eq_ofOptions_of_readable hnodup hoptions rfl he
  exact ⟨rfl, (Node.forall_mem_walk_leaf_iff rfl).2
    (List.forall_mem_cons.2 ⟨hmem, List.forall_mem_cons.2 ⟨hmem', hmems⟩⟩)⟩

theorem recognizes_pointer :
    RecognizesKind table follow (MetaSchema.attributes .pointer) .pointer := by
  intro pairs n hpairs h _
  obtain ⟨name, rest, rfl, hname, hrest⟩ := hpairs.cons
  obtain ⟨target, rest, rfl, htarget, hrest₂⟩ := hrest.cons
  cases hrest₂.nil
  rw [node, kindAt_cons, ok_bind] at h
  obtain ⟨own, hown, h⟩ := bind_eq_ok_iff.1 h
  obtain ⟨ownTarget, hownTarget, h⟩ := bind_eq_ok_iff.1 h
  cases h
  obtain ⟨rfl, hmem⟩ := eq_indexValue_of_readable hnodup hname hown
  obtain ⟨rfl, hmem'⟩ := eq_indexValue_of_readable hnodup htarget hownTarget
  exact ⟨rfl, (Node.forall_mem_walk_leaf_iff rfl).2
    (List.forall_mem_cons.2 ⟨hmem, List.forall_mem_singleton.2 hmem'⟩)⟩

/-- A node that nests no other is described by what it was rebuilt from. -/
theorem recognizes_leaf {kind : Kind} (hleaf : kind.isContainer = false) :
    RecognizesKind table follow (MetaSchema.attributes kind) kind := by
  cases kind with
  | bool => exact recognizes_bool hnodup
  | int => exact recognizes_int hnodup
  | fixed => exact recognizes_fixed hnodup
  | enumeration => exact recognizes_enumeration hnodup
  | enumArray => exact recognizes_enumArray hnodup
  | pointer => exact recognizes_pointer hnodup
  | optional | array | object | union => cases hleaf

end

/-! #### Kinds with nested nodes -/

/-- A valid node that is rebuilt from what was read at a level is described by it. -/
def Recognizes (table : StringTable) (follow : ReadPointer) (levels : Nat) : Prop :=
  ∀ (name : String) (value : Value) (n : Node),
    Readable follow (MetaSchema.nodeUnion levels name) value → node table value = .ok n →
      n.Valid → Describes table value n

section

variable {levels : Nat} (hnodup : table.entries.Nodup) (ih : Recognizes table follow levels)

include hnodup ih

/-- An optional node is known by its name and its inner node. -/
theorem recognizes_optional :
    RecognizesKind table follow (MetaSchema.kindFields (levels + 1) .optional) .optional := by
  intro pairs n hpairs h hvalid
  obtain ⟨name, rest, rfl, hname, hrest⟩ := hpairs.cons
  obtain ⟨inner, rest, rfl, hinner, hrest₂⟩ := hrest.cons
  cases hrest₂.nil
  rw [MetaSchema.name_nodeUnion] at h ⊢
  rw [node, kindAt_cons, ok_bind] at h
  obtain ⟨own, hown, h⟩ := bind_eq_ok_iff.1 h
  obtain ⟨m, hm, h⟩ := bind_eq_ok_iff.1 h
  cases h
  obtain ⟨rfl, hmem⟩ := eq_indexValue_of_readable hnodup hname hown
  obtain ⟨rfl, hstrings⟩ := ih "inner" inner m hinner hm (Node.valid_optional_iff.1 hvalid)
  exact ⟨rfl, Node.forall_mem_walk_iff.2 ⟨List.forall_mem_singleton.2 hmem,
    List.forall_mem_singleton.2 hstrings⟩⟩

/-- An array is known by its name, its bounds and its item. -/
theorem recognizes_array :
    RecognizesKind table follow (MetaSchema.kindFields (levels + 1) .array) .array := by
  intro pairs n hpairs h hvalid
  obtain ⟨name, rest, rfl, hname, hrest⟩ := hpairs.cons
  obtain ⟨min, rest, rfl, hmin, hrest₂⟩ := hrest.cons
  obtain ⟨max, rest, rfl, hmax, hrest₃⟩ := hrest₂.cons
  obtain ⟨item, rest, rfl, hitem, hrest₄⟩ := hrest₃.cons
  cases hrest₄.nil
  rw [MetaSchema.name_nodeUnion] at h ⊢
  rw [node, kindAt_cons, ok_bind] at h
  obtain ⟨own, hown, h⟩ := bind_eq_ok_iff.1 h
  obtain ⟨minLength, hminLength, h⟩ := bind_eq_ok_iff.1 h
  obtain ⟨maxLength, hmaxLength, h⟩ := bind_eq_ok_iff.1 h
  obtain ⟨m, hm, h⟩ := bind_eq_ok_iff.1 h
  cases h
  obtain ⟨rfl, hmem⟩ := eq_indexValue_of_readable hnodup hname hown
  obtain rfl := eq_length_of_readable hmin rfl hminLength
  obtain rfl := eq_length_of_readable hmax rfl hmaxLength
  obtain ⟨rfl, hstrings⟩ := ih "item" item m hitem hm (Node.valid_array_iff.1 hvalid).2
  exact ⟨rfl, Node.forall_mem_walk_iff.2 ⟨List.forall_mem_singleton.2 hmem,
    List.forall_mem_singleton.2 hstrings⟩⟩

omit hnodup in
/-- Valid nodes that are rebuilt from a list are described by its items, one by one. -/
theorem describes_nodes {name : String} {items : List Value} {fields : List Node}
    (hitems : ∀ item ∈ items, Readable follow (MetaSchema.nodeUnion levels name) item)
    (h : nodes table items = .ok fields) (hvalid : ∀ field ∈ fields, field.Valid) :
    items = fields.map (ofNode table.indexValue) ∧
      ∀ field ∈ fields, ∀ m ∈ field.walk, ∀ s ∈ m.ownStrings, s ∈ table.entries := by
  induction items generalizing fields with
  | nil =>
      cases h
      exact ⟨rfl, by simp⟩
  | cons item rest ihrest =>
      rw [nodes, bind_eq_ok_iff] at h
      obtain ⟨first, hfirst, h⟩ := h
      obtain ⟨more, hmore, h⟩ := bind_eq_ok_iff.1 h
      cases h
      obtain ⟨hitem, hrest⟩ := List.forall_mem_cons.1 hitems
      obtain ⟨hfield, hfields⟩ := List.forall_mem_cons.1 hvalid
      have hdescribes := ih name item first hitem hfirst hfield
      obtain ⟨hmap, hstrings⟩ := ihrest hrest hmore hfields
      refine ⟨?_, List.forall_mem_cons.2 ⟨hdescribes.strings, hstrings⟩⟩
      rw [List.map_cons, ← hdescribes.eq, ← hmap]

/-- An object is known by its name and the list of its fields. -/
theorem recognizes_object :
    RecognizesKind table follow (MetaSchema.kindFields (levels + 1) .object) .object := by
  intro pairs n hpairs h hvalid
  obtain ⟨name, rest, rfl, hname, hrest⟩ := hpairs.cons
  obtain ⟨list, rest, rfl, hlist, hrest₂⟩ := hrest.cons
  cases hrest₂.nil
  obtain ⟨items, rfl, hitems⟩ := exists_array_of_readable hlist
  rw [node, kindAt_cons, ok_bind] at h
  obtain ⟨own, hown, h⟩ := bind_eq_ok_iff.1 h
  obtain ⟨fields, hfields, h⟩ := bind_eq_ok_iff.1 h
  cases h
  obtain ⟨rfl, hmem⟩ := eq_indexValue_of_readable hnodup hname hown
  obtain ⟨rfl, hstrings⟩ := describes_nodes ih hitems hfields (Node.valid_object_iff.1 hvalid).2
  refine ⟨?_, Node.forall_mem_walk_iff.2 ⟨List.forall_mem_singleton.2 hmem, hstrings⟩⟩
  rw [ofNode, ofNodes_eq]
  rfl

omit hnodup in
/-- Valid nodes that are rebuilt from the variants of a description are described by them. -/
theorem describes_variants {lists : List Value} {fields : List (List Node)}
    (hlists : ∀ list ∈ lists, Readable follow
      (MetaSchema.nodeList "variant" (MetaSchema.nodeUnion levels "field")) list)
    (h : Rebuild.variants table lists = .ok fields)
    (hvalid : ∀ variant ∈ fields, ∀ field ∈ variant, field.Valid) :
    lists = fields.map (fun variant => .array (variant.map (ofNode table.indexValue))) ∧
      ∀ variant ∈ fields, ∀ field ∈ variant, ∀ m ∈ field.walk, ∀ s ∈ m.ownStrings,
        s ∈ table.entries := by
  induction lists generalizing fields with
  | nil =>
      cases h
      exact ⟨rfl, by simp⟩
  | cons list rest ihrest =>
      obtain ⟨hlist, hrest⟩ := List.forall_mem_cons.1 hlists
      obtain ⟨items, rfl, hitems⟩ := exists_array_of_readable hlist
      rw [Rebuild.variants, bind_eq_ok_iff] at h
      obtain ⟨first, hfirst, h⟩ := h
      obtain ⟨more, hmore, h⟩ := bind_eq_ok_iff.1 h
      cases h
      obtain ⟨hvariant, hvariants⟩ := List.forall_mem_cons.1 hvalid
      obtain ⟨hmap, hstrings⟩ := describes_nodes ih hitems hfirst hvariant
      obtain ⟨hmaps, hmore⟩ := ihrest hrest hmore hvariants
      exact ⟨by rw [List.map_cons, ← hmap, ← hmaps], List.forall_mem_cons.2 ⟨hstrings, hmore⟩⟩

omit hnodup ih in
/-- There are as many lists of fields as were read, so they can be paired with the options. -/
theorem length_of_variants {lists : List Value} {fields : List (List Node)}
    (h : Rebuild.variants table lists = .ok fields) : fields.length = lists.length := by
  induction lists generalizing fields with
  | nil =>
      cases h
      rfl
  | cons list rest ihrest =>
      cases list with
      | array items =>
          rw [Rebuild.variants, bind_eq_ok_iff] at h
          obtain ⟨first, -, h⟩ := h
          obtain ⟨more, hmore, h⟩ := bind_eq_ok_iff.1 h
          cases h
          rw [List.length_cons, List.length_cons, ihrest hmore]
      | null | bool | int | fixed | string | object => cases h

omit hnodup ih in
/-- Distinct options find the variants that stand beside them. -/
theorem map_ofVariant_zip (indexOf : String → Value) {options : List String}
    (hoptions : options.Nodup) {fields : List (List Node)}
    (hlength : fields.length = options.length) :
    (options.map fun option => ofVariant indexOf (options.zip fields) option) =
      fields.map fun variant => .array (variant.map (ofNode indexOf)) := by
  induction options generalizing fields with
  | nil => rw [List.length_eq_zero_iff.1 hlength, List.map_nil, List.map_nil]
  | cons option rest ihrest =>
      cases fields with
      | nil => cases hlength
      | cons variant more =>
          obtain ⟨hnotMem, hrest⟩ := List.nodup_cons.1 hoptions
          have htail : (rest.map fun other =>
              ofVariant indexOf ((option, variant) :: rest.zip more) other) =
                rest.map fun other => ofVariant indexOf (rest.zip more) other := by
            refine List.map_congr_left fun other hother => ?_
            rw [ofVariant, if_neg]
            rintro rfl
            exact hnotMem hother
          rw [List.zip_cons_cons, List.map_cons, htail, ihrest hrest (Nat.succ.inj hlength),
            List.map_cons, ofVariant, if_pos rfl, ofNodes_eq]

/-- A union is known by its two names, its options and the lists of fields beside them.  Validity
says that the options are distinct, which is what brings each list back to its option. -/
theorem recognizes_union :
    RecognizesKind table follow (MetaSchema.kindFields (levels + 1) .union) .union := by
  intro pairs n hpairs h hvalid
  obtain ⟨name, rest, rfl, hname, hrest⟩ := hpairs.cons
  obtain ⟨discriminatorName, rest, rfl, hdiscriminator, hrest₂⟩ := hrest.cons
  obtain ⟨options, rest, rfl, hoptions, hrest₃⟩ := hrest₂.cons
  obtain ⟨list, rest, rfl, hlist, hrest₄⟩ := hrest₃.cons
  cases hrest₄.nil
  obtain ⟨lists, rfl, hlists⟩ := exists_array_of_readable hlist
  rw [node, kindAt_cons, ok_bind] at h
  obtain ⟨own, hown, h⟩ := bind_eq_ok_iff.1 h
  obtain ⟨ownDiscriminator, hownDiscriminator, h⟩ := bind_eq_ok_iff.1 h
  obtain ⟨e, he, h⟩ := bind_eq_ok_iff.1 h
  obtain ⟨counted, hcounted, h⟩ := bind_eq_ok_iff.1 h
  obtain rfl : lists = counted := Except.ok.inj hcounted
  split at h
  · cases h
  · next hcount =>
    obtain ⟨fields, hfields, h⟩ := bind_eq_ok_iff.1 h
    cases h
    obtain ⟨rfl, hmem⟩ := eq_indexValue_of_readable hnodup hname hown
    obtain ⟨rfl, hmem'⟩ := eq_indexValue_of_readable hnodup hdiscriminator hownDiscriminator
    obtain ⟨rfl, rfl, hmems⟩ := eq_ofOptions_of_readable hnodup hoptions rfl he
    have hlength : fields.length = e.options.length :=
      (length_of_variants hfields).trans (not_not.1 hcount)
    have hfst : (e.options.zip fields).map Prod.fst = e.options := List.map_fst_zip hlength.ge
    have hsnd : (e.options.zip fields).map Prod.snd = fields := List.map_snd_zip hlength.le
    -- The lists were stored under the options, so of a repeated option one list would be lost.
    obtain ⟨⟨-, hdistinct⟩, -, hvariants⟩ := Node.valid_union_iff.1 hvalid
    have hkeys : (Entries.keys (e.options.zip fields)).Nodup := by
      rw [Entries.keys, hfst]
      exact hdistinct
    rw [Entries.ofList_of_nodup hkeys] at hvariants ⊢
    have hnodes : ∀ variant ∈ fields, ∀ field ∈ variant, field.Valid := by
      rw [← hsnd, List.forall_mem_map]
      exact fun entry hentry => (hvariants entry hentry).2
    obtain ⟨rfl, hstrings⟩ := describes_variants ih hlists hfields hnodes
    refine ⟨?_, Node.forall_mem_walk_iff.2 ⟨?_, fun child hchild => ?_⟩⟩
    · rw [ofNode, map_ofVariant_zip _ hdistinct hlength]
      rfl
    · exact List.forall_mem_cons.2 ⟨hmem, List.forall_mem_cons.2 ⟨hmem', hmems⟩⟩
    · obtain ⟨option, -, hchild⟩ := Node.mem_children_union.1 hchild
      obtain ⟨⟨key, variant⟩, hentry, hfield⟩ := Entries.exists_mem_of_mem_getD hchild
      exact hstrings variant (List.of_mem_zip hentry).2 child hfield

end

/-- **A rebuilt node is described by what was read**, at every level.  So nothing is lost in
rebuilding: what was read can be written again from the node. -/
theorem recognizes (hnodup : table.entries.Nodup) (levels : Nat) :
    Recognizes table follow levels := by
  induction levels with
  | zero =>
      intro name value n hread h hvalid
      obtain ⟨kind, hkind, pairs, rfl, hpairs⟩ := MetaSchema.exists_of_readable_nodeUnion hread
      exact recognizes_leaf hnodup (MetaSchema.mem_kinds_zero.1 hkind) pairs n hpairs h hvalid
  | succ levels ih =>
      intro name value n hread h hvalid
      obtain ⟨kind, -, pairs, rfl, hpairs⟩ := MetaSchema.exists_of_readable_nodeUnion hread
      cases kind with
      | optional => exact recognizes_optional hnodup ih pairs n hpairs h hvalid
      | array => exact recognizes_array hnodup ih pairs n hpairs h hvalid
      | object => exact recognizes_object hnodup ih pairs n hpairs h hvalid
      | union => exact recognizes_union hnodup ih pairs n hpairs h hvalid
      | bool | int | fixed | enumeration | enumArray | pointer =>
          rw [MetaSchema.kindFields_of_leaf rfl] at hpairs
          exact recognizes_leaf hnodup rfl pairs n hpairs h hvalid

end

/-! ### Schemas -/

/-- An octet that was read is the one that it was rebuilt to. -/
theorem eq_map_of_octets {values : List Value} {bytes : List UInt8}
    (hvalues : ∀ value ∈ values, ∃ i, value = .int i) (h : values.mapM octet = .ok bytes) :
    values = bytes.map fun byte => .int (Int64.ofInt byte.toNat) := by
  have hoctets := forall₂_of_mapM h
  clear h
  induction hoctets with
  | nil => rfl
  | @cons value byte values bytes hfirst _ ih =>
      obtain ⟨⟨i, rfl⟩, hrest⟩ := List.forall_mem_cons.1 hvalues
      rw [octet, Value.asInt?] at hfirst
      dsimp only at hfirst
      split at hfirst
      · next hrange =>
        cases hfirst
        obtain ⟨hpos, hlt⟩ := hrange
        have hsize : i.toInt.toNat < UInt8.size := by
          rw [show UInt8.size = 256 from rfl]
          omega
        rw [List.map_cons, ← ih hrest, UInt8.toNat_ofNat_of_lt' hsize, Int.toNat_of_nonneg hpos,
          Int64.ofInt_toInt]
      · cases hfirst

/-- The data describes the schema, with indices into the table. -/
structure DescribesSchema (table : StringTable) (data : Value) (s : Schema) : Prop where
  eq : data = ofSchema table s.fields
  nodup : table.entries.Nodup
  separator : ∀ entry ∈ table.entries, StringTable.separator ∉ entry.toList
  name : table.entry 0 = .ok s.name
  strings : ∀ m ∈ Node.walkList s.fields, ∀ entry ∈ m.ownStrings, entry ∈ table.entries
  rebuilt : nodes table (s.fields.map (ofNode table.indexValue)) = .ok s.fields

/-- What is read against the meta-schema has a version, nodes and octets. -/
theorem exists_of_unpackData {depth : Nat} {bytes : List UInt8} {options : CodecOptions}
    {data : Value} (h : unpackData (MetaSchema.fields depth) bytes options = .ok data) :
    ∃ follow version items octets,
      data = .object [("meta", .object [("version", .int version)]), ("fields", .array items),
        ("strings", .array octets)] ∧
      (∀ item ∈ items, Readable follow (MetaSchema.nodeUnion (depth - 1) "field") item) ∧
      ∀ value ∈ octets, Readable follow (.int "byte" 0 255) value := by
  rw [unpackData, readData, bind_eq_ok_iff] at h
  obtain ⟨⟨pairs, r⟩, hpairs, h⟩ := h
  dsimp only at h
  split at h
  · cases h
  · cases h
    have hread := readableFields_of_readFields hpairs
    obtain ⟨header, rest, rfl, hheader, hrest⟩ := hread.cons
    obtain ⟨list, rest, rfl, hlist, hrest₂⟩ := hrest.cons
    obtain ⟨strings, rest, rfl, hstrings, hrest₃⟩ := hrest₂.cons
    cases hrest₃.nil
    obtain ⟨headerPairs, rfl, hversions⟩ := exists_object_of_readable hheader
    obtain ⟨value, rest, rfl, hversion, hversions₂⟩ := hversions.cons
    cases hversions₂.nil
    obtain ⟨version, rfl⟩ := exists_int_of_readable hversion
    obtain ⟨items, rfl, hitems⟩ := exists_array_of_readable hlist
    obtain ⟨octets, rfl, hoctets⟩ := exists_array_of_readable hstrings
    exact ⟨_, version, items, octets, rfl, hitems, hoctets⟩

/-- **A schema that was rebuilt is described by what was read**, with indices into a table.  The
table is the one in the token, which may have entries that no node uses. -/
theorem exists_describesSchema {depth : Nat} {bytes : List UInt8} {options : CodecOptions}
    {data : Value} {s : Schema} (h : unpackData (MetaSchema.fields depth) bytes options = .ok data)
    (hschema : schema data = .ok s) (hvalid : ∀ field ∈ s.fields, field.Valid) :
    ∃ table, DescribesSchema table data s := by
  obtain ⟨follow, version, items, octets, rfl, hitems, hoctets⟩ := exists_of_unpackData h
  obtain ⟨hversion, table, htable, hname, hnodes⟩ := schema_eq_ok_iff.1 hschema
  cases hversion
  rw [tableOf, bind_eq_ok_iff] at htable
  obtain ⟨bytes, hbytes, htable⟩ := htable
  split at htable
  · next found hfound =>
    cases htable
    obtain ⟨rfl, -, hnodup, hseparator⟩ := StringTable.of_ofBytes hfound
    obtain ⟨rfl, hstrings⟩ := describes_nodes (recognizes hnodup _) hitems hnodes hvalid
    refine ⟨table, ⟨?_, hnodup, hseparator, hname, fun m hm => ?_, hnodes⟩⟩
    · have hints := fun value hvalue => exists_int_of_readable (hoctets value hvalue)
      rw [ofSchema, ← eq_map_of_octets hints hbytes]
    · obtain ⟨field, hfield, hm⟩ := Node.mem_walkList.1 hm
      exact hstrings field hfield m hm
  · cases htable

end Rebuild

end FieldGrammar
