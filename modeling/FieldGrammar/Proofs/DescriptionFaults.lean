import Mathlib
import FieldGrammar.Proofs.DecodingErrors
import FieldGrammar.Proofs.Recognition

/-!
# What can be wrong with a description that was read

Rebuilding looks up the keys of each kind and expects the kind of value that the meta-schema
declares under each of them.  The two are written apart, and this module shows that they agree:
what was read at any level offers every key that rebuilding asks for, with a value of the kind it
expects, and an integer in the range that it converts from.  What is left to go wrong is what the
meta-schema cannot express: the version, the text of the string table, the repetition of an entry,
an index outside of the table, and the number of variants of a union.

## Main definitions

* `Packing.Offers` — entries have a value that was read against a field under its name
* `Rebuild.IsNodeFault`, `Rebuild.IsDescriptionFault` — the faults that remain

## Main statements

* `Rebuild.failsWith_node_object` — one node of any kind, given the nodes that it nests
* `Rebuild.failsWith_node` — a node that was read at any level
* `Rebuild.eq_ok_or_isDescriptionFault_of_unpackData` — how the rebuilding of what was read fails
-/

namespace FieldGrammar

/-! ### Repetitions -/

section

variable {α : Type} [BEq α] [LawfulBEq α]

/-- What is found to repeat was seen before or repeats in the rest. -/
private theorem duplicate_of_firstRepeatedFrom? {seen xs : List α} {x : α}
    (h : firstRepeatedFrom? seen xs = some x) : (x ∈ seen ∧ x ∈ xs) ∨ List.Duplicate x xs := by
  induction xs generalizing seen with
  | nil => cases h
  | cons first rest ih =>
      rw [firstRepeatedFrom?] at h
      split at h
      · next hseen =>
        cases h
        exact .inl ⟨List.contains_iff_mem.1 hseen, List.mem_cons_self⟩
      · rcases ih h with ⟨hseen, hrest⟩ | hrest
        · rcases List.mem_cons.1 hseen with rfl | hseen
          · exact .inr (List.Mem.duplicate_cons_self hrest)
          · exact .inl ⟨hseen, List.mem_cons_of_mem _ hrest⟩
        · exact .inr (hrest.duplicate_cons first)

/-- The element that is found to repeat occurs twice. -/
theorem duplicate_of_firstRepeated? {xs : List α} {x : α} (h : firstRepeated? xs = some x) :
    List.Duplicate x xs :=
  (duplicate_of_firstRepeatedFrom? h).resolve_left fun hseen => List.not_mem_nil hseen.1

end

namespace Packing

/-! ### What readable values offer -/

variable {follow : ReadPointer} {entries : Entries Value}

/-- An integer that was read is between the bounds of its field. -/
theorem exists_between_of_readable {name : String} {min max : Int64} {value : Value}
    (hle : min ≤ max) (h : Readable follow (.int name min max) value) :
    ∃ n, value = .int n ∧ min ≤ n ∧ n ≤ max := by
  obtain ⟨r, r', h⟩ := h
  obtain ⟨n, hread, rfl⟩ := readNode_int_eq_ok_iff.1 h
  exact ⟨n, rfl, (offset_of_readOffset hle hread).1⟩

/-- Under the name of the field, the entries have a value that was read against it.  It is the first
entry of that name, so lookups find it. -/
def Offers (follow : ReadPointer) (entries : Entries Value) (field : Node) : Prop :=
  ∃ value, Entries.get? entries field.name = some value ∧ Readable follow field value

/-- An entry of another name does not hide what is offered. -/
theorem Offers.cons {field : Node} (h : Offers follow entries field) {key : String}
    (hne : key ≠ field.name) (value : Value) : Offers follow ((key, value) :: entries) field := by
  obtain ⟨found, hget, hfound⟩ := h
  exact ⟨found, by rw [Entries.get?_cons_of_ne hne, hget], hfound⟩

/-- Fields that were read are offered under their names. -/
theorem ReadableFields.offers {fields : List Node} {pairs : List (String × Value)}
    (h : ReadableFields follow fields pairs) (hnames : (fields.map Node.name).Nodup) :
    ∀ field ∈ fields, Offers follow pairs field := by
  induction h with
  | nil => exact List.forall_mem_nil _
  | @cons field pair fields pairs hfirst _ ih =>
      obtain ⟨key, value⟩ := pair
      obtain ⟨rfl, hvalue⟩ := hfirst
      rw [List.map_cons, List.nodup_cons] at hnames
      refine List.forall_mem_cons.2 ⟨⟨value, Entries.get?_cons_self _ _ _, hvalue⟩, ?_⟩
      intro other hother
      refine (ih hnames.2 other hother).cons ?_ value
      exact fun heq => hnames.1 (heq ▸ List.mem_map_of_mem hother)

end Packing

namespace Rebuild

open Packing

/-! ### Lookups -/

/-- What can be wrong with nodes that were read: an index that is not in the table of this size,
or a union with another number of variants than options. -/
inductive IsNodeFault (size : Nat) : Error → Prop
  | index {i : Nat} (h : size ≤ i) : IsNodeFault size (.stringTable (.index i size))
  | variantCount {name : String} {variants options : Nat} (h : variants ≠ options) :
      IsNodeFault size (.corruptToken "" (.variantCount name variants options))

section

variable {table : StringTable} {follow : ReadPointer} {entries : Entries Value} {key : String}

/-- Where an integer field is offered, looking it up gives an integer between its bounds.  This and
the next lemmas match the lookups of rebuilding with the fields of the meta-schema. -/
theorem exists_intAt {min max : Int64} (hle : min ≤ max)
    (h : Offers follow entries (.int key min max)) :
    ∃ n, intAt entries key = .ok n ∧ min ≤ n ∧ n ≤ max := by
  obtain ⟨value, hget, hvalue⟩ := h
  obtain ⟨n, rfl, hn⟩ := exists_between_of_readable hle hvalue
  refine ⟨n, ?_, hn⟩
  rw [intAt, show Entries.get? entries key = _ from hget]
  rfl

theorem exists_fixedAt {min max precision : Float}
    (h : Offers follow entries (.fixed key min max precision)) :
    ∃ x, fixedAt entries key = .ok x := by
  obtain ⟨value, hget, hvalue⟩ := h
  obtain ⟨x, rfl⟩ := exists_fixed_of_readable hvalue
  refine ⟨x, ?_⟩
  rw [fixedAt, show Entries.get? entries key = _ from hget]
  rfl

/-- Where an array is offered, looking it up gives the items that were read. -/
theorem exists_listAt {minLength maxLength : UInt32} {item : Node}
    (h : Offers follow entries (.array key minLength maxLength item)) :
    ∃ items, Entries.get? entries key = some (.array items) ∧ listAt entries key = .ok items ∧
      ∀ element ∈ items, Readable follow item element := by
  obtain ⟨value, hget, hvalue⟩ := h
  obtain ⟨items, rfl, hitems⟩ := exists_array_of_readable hvalue
  have hfound : Entries.get? entries key = some (.array items) := hget
  refine ⟨items, hfound, ?_, hitems⟩
  rw [listAt, hfound]
  rfl

/-- A length that was read is converted without loss. -/
theorem exists_lengthAt (h : Offers follow entries (MetaSchema.length key)) :
    ∃ n, lengthAt entries key = .ok n := by
  obtain ⟨n, hint, hlow, hhigh⟩ := exists_intAt (by decide) h
  rw [Int64.le_iff_toInt_le] at hlow hhigh
  have hrange : 0 ≤ n.toInt ∧ n.toInt < UInt32.size :=
    ⟨hlow, hhigh.trans_lt (by decide)⟩
  refine ⟨UInt32.ofNat n.toInt.toNat, ?_⟩
  rw [lengthAt, hint, ok_bind, if_pos hrange]
  rfl

/-- The only fault of an index that was read is to be outside of the table. -/
theorem failsWith_string {name : String} {value : Value}
    (h : Readable follow (MetaSchema.index name) value) :
    FailsWith (IsNodeFault table.size) (string table value) := by
  obtain ⟨n, rfl, hlow, -⟩ := exists_between_of_readable (by decide) h
  rw [Int64.le_iff_toInt_le] at hlow
  rw [string, Value.asInt?]
  dsimp only
  rw [if_pos (show 0 ≤ n.toInt from hlow), StringTable.entry]
  cases hentry : table.entries[n.toInt.toNat]? with
  | some s => exact failsWith_ok s
  | none => exact failsWith_error_iff.2 (.index (List.getElem?_eq_none_iff.1 hentry))

/-- A string has one fault: its index is not in the table. -/
theorem failsWith_stringAt (h : Offers follow entries (MetaSchema.index key)) :
    FailsWith (IsNodeFault table.size) (stringAt table entries key) := by
  obtain ⟨value, hget, hvalue⟩ := h
  rw [stringAt, show Entries.get? entries key = _ from hget]
  exact failsWith_string hvalue

/-- An enumeration has one fault: the index of an option is not in the table. -/
theorem failsWith_enumeration (name : String)
    (h : Offers follow entries (MetaSchema.indexList "options")) :
    FailsWith (IsNodeFault table.size) (enumeration table name entries) := by
  obtain ⟨items, -, hlist, hitems⟩ := exists_listAt h
  rw [enumeration, hlist, ok_bind]
  exact (FailsWith.mapM fun item hitem => failsWith_string (hitems item hitem)).bind
    fun options _ => failsWith_ok _

/-! Nested nodes are rebuilt from what stands under their key. -/

/-- Nested nodes are rebuilt from the value that their key finds.  Rebuilding looks the key up in
the same recursion, so this has to be shown. -/
theorem nodeAt_of_get? {value : Value} (h : Entries.get? entries key = some value) :
    nodeAt table entries key = node table value :=
  Entries.search_eq_of_get? (f := (nodeAt table · key)) (fun _ _ _ => by rw [nodeAt]) h

theorem nodesAt_of_get? {items : List Value}
    (h : Entries.get? entries key = some (.array items)) :
    nodesAt table entries key = nodes table items :=
  Entries.search_eq_of_get? (f := (nodesAt table · key))
    (g := fun value => value.asArray?.elim (.error (missing key)) (nodes table))
    (fun _ value _ => by cases value <;> rfl) h

theorem variantsAt_of_get? {lists : List Value}
    (h : Entries.get? entries key = some (.array lists)) :
    variantsAt table entries key = variants table lists :=
  Entries.search_eq_of_get? (f := (variantsAt table · key))
    (g := fun value => value.asArray?.elim (.error (missing key)) (variants table))
    (fun _ value _ => by cases value <;> rfl) h

/-! ### Nodes -/

/-- The values that were read against the node are rebuilt, or the fault is that of a node. -/
def RebuildsOrFaults (table : StringTable) (follow : ReadPointer) (described : Node) : Prop :=
  ∀ value, Readable follow described value → FailsWith (IsNodeFault table.size) (node table value)

section

variable {described : Node} (ih : RebuildsOrFaults table follow described)

include ih

/-- A list of nodes that were read has the faults of nodes. -/
theorem failsWith_nodes {items : List Value} (h : ∀ item ∈ items, Readable follow described item) :
    FailsWith (IsNodeFault table.size) (nodes table items) := by
  induction items with
  | nil => exact failsWith_ok []
  | cons item rest ihrest =>
      obtain ⟨hitem, hrest⟩ := List.forall_mem_cons.1 h
      rw [nodes]
      exact (ih item hitem).bind fun first _ =>
        (ihrest hrest).bind fun more _ => failsWith_ok (first :: more)

/-- The lists of nodes of a union have the faults of nodes; that each of them is a list is known
from reading. -/
theorem failsWith_variants {lists : List Value}
    (h : ∀ list ∈ lists, Readable follow (MetaSchema.nodeList "variant" described) list) :
    FailsWith (IsNodeFault table.size) (variants table lists) := by
  induction lists with
  | nil => exact failsWith_ok []
  | cons list rest ihrest =>
      obtain ⟨hlist, hrest⟩ := List.forall_mem_cons.1 h
      obtain ⟨items, rfl, hitems⟩ := exists_array_of_readable hlist
      rw [variants]
      exact (failsWith_nodes ih hitems).bind fun first _ =>
        (ihrest hrest).bind fun more _ => failsWith_ok (first :: more)

end

/-- **A node of any kind** whose attributes and nested nodes are offered is rebuilt, or its fault
is that of a node, if this is so for what it nests. -/
theorem failsWith_node_object {nested : String → Node} {kind : Kind}
    (hkind : kindAt entries = .ok kind)
    (hfields : ∀ field ∈ MetaSchema.attributes kind ++ MetaSchema.contents nested kind,
      Offers follow entries field)
    (hname : ∀ name, (nested name).name = name)
    (ih : ∀ name, kind.isContainer = true → RebuildsOrFaults table follow (nested name)) :
    FailsWith (IsNodeFault table.size) (node table (.object entries)) := by
  have hnodeAt : ∀ {name}, kind.isContainer = true → Offers follow entries (nested name) →
      FailsWith (IsNodeFault table.size) (nodeAt table entries name) := by
    intro name hcontainer hoffers
    obtain ⟨value, hget, hvalue⟩ := hoffers
    rw [hname] at hget
    rw [nodeAt_of_get? hget]
    exact ih name hcontainer value hvalue
  rw [node, hkind, ok_bind]
  cases kind <;> simp only [MetaSchema.attributes, MetaSchema.contents, List.cons_append,
    List.nil_append, List.forall_mem_cons] at hfields
  case bool =>
    obtain ⟨hown, -⟩ := hfields
    exact (failsWith_stringAt hown).bind fun name _ => failsWith_ok _
  case int =>
    obtain ⟨hown, hmin, hmax, -⟩ := hfields
    obtain ⟨min, hmin, -⟩ := exists_intAt (by decide) hmin
    obtain ⟨max, hmax, -⟩ := exists_intAt (by decide) hmax
    refine (failsWith_stringAt hown).bind fun name _ => ?_
    rw [hmin, ok_bind, hmax, ok_bind]
    exact failsWith_ok _
  case fixed =>
    obtain ⟨hown, hmin, hmax, hprecision, -⟩ := hfields
    obtain ⟨min, hmin⟩ := exists_fixedAt hmin
    obtain ⟨max, hmax⟩ := exists_fixedAt hmax
    obtain ⟨precision, hprecision⟩ := exists_fixedAt hprecision
    refine (failsWith_stringAt hown).bind fun name _ => ?_
    rw [hmin, ok_bind, hmax, ok_bind, hprecision, ok_bind]
    exact failsWith_ok _
  case enumeration =>
    obtain ⟨hown, hoptions, -⟩ := hfields
    refine (failsWith_stringAt hown).bind fun name _ => ?_
    exact (failsWith_enumeration name hoptions).bind fun e _ => failsWith_ok _
  case optional =>
    obtain ⟨hown, hinner, -⟩ := hfields
    refine (failsWith_stringAt hown).bind fun name _ => ?_
    exact (hnodeAt rfl hinner).bind fun inner _ => failsWith_ok _
  case array =>
    obtain ⟨hown, hmin, hmax, hitem, -⟩ := hfields
    obtain ⟨minLength, hmin⟩ := exists_lengthAt hmin
    obtain ⟨maxLength, hmax⟩ := exists_lengthAt hmax
    refine (failsWith_stringAt hown).bind fun name _ => ?_
    rw [hmin, ok_bind, hmax, ok_bind]
    exact (hnodeAt rfl hitem).bind fun item _ => failsWith_ok _
  case enumArray =>
    obtain ⟨hown, hmin, hmax, henum, hoptions, -⟩ := hfields
    obtain ⟨minLength, hmin⟩ := exists_lengthAt hmin
    obtain ⟨maxLength, hmax⟩ := exists_lengthAt hmax
    refine (failsWith_stringAt hown).bind fun name _ => ?_
    refine (failsWith_stringAt henum).bind fun enumName _ => ?_
    rw [hmin, ok_bind, hmax, ok_bind]
    exact (failsWith_enumeration enumName hoptions).bind fun e _ => failsWith_ok _
  case object =>
    obtain ⟨hown, hlist, -⟩ := hfields
    obtain ⟨items, hget, -, hitems⟩ := exists_listAt hlist
    refine (failsWith_stringAt hown).bind fun name _ => ?_
    rw [nodesAt_of_get? hget]
    exact (failsWith_nodes (ih "field" rfl) hitems).bind fun fields _ => failsWith_ok _
  case union =>
    obtain ⟨hown, hdiscriminator, hoptions, hvariants, -⟩ := hfields
    obtain ⟨lists, hget, hlist, hlists⟩ := exists_listAt hvariants
    refine (failsWith_stringAt hown).bind fun name _ => ?_
    refine (failsWith_stringAt hdiscriminator).bind fun discriminatorName _ => ?_
    refine (failsWith_enumeration discriminatorName hoptions).bind fun discriminator _ => ?_
    rw [hlist, ok_bind]
    split
    · next hcount => exact failsWith_error_iff.2 (.variantCount hcount)
    · rw [variantsAt_of_get? hget]
      exact (failsWith_variants (ih "field" rfl) hlists).bind fun variants _ => failsWith_ok _
  case pointer =>
    obtain ⟨hown, htarget, -⟩ := hfields
    refine (failsWith_stringAt hown).bind fun name _ => ?_
    exact (failsWith_stringAt htarget).bind fun target _ => failsWith_ok _

/-- **A node that was read at any level** is rebuilt, or its fault is that of a node.  The induction
is on the levels below, since a node nests nodes of the next level only. -/
theorem failsWith_node (levels : Nat) (name : String) :
    RebuildsOrFaults table follow (MetaSchema.nodeUnion levels name) := by
  -- The last level offers leaves only, so the nodes below it, which do not exist, are never asked
  -- for.
  have hread : ∀ {levels name value}, Readable follow (MetaSchema.nodeUnion levels name) value →
      ∃ kind ∈ MetaSchema.kinds levels, ∃ entries, value = .object entries ∧
        kindAt entries = .ok kind ∧
          ∀ field ∈ MetaSchema.kindFields levels kind, Offers follow entries field := by
    intro levels name value h
    obtain ⟨kind, hkind, pairs, rfl, hpairs⟩ := MetaSchema.exists_of_readable_nodeUnion h
    refine ⟨kind, hkind, _, rfl, kindAt_cons kind pairs, fun field hfield => ?_⟩
    refine (hpairs.offers (MetaSchema.nodup_names levels kind) field hfield).cons ?_ _
    exact fun heq => MetaSchema.kindName_notMem_names levels kind
      (List.mem_map.2 ⟨field, hfield, heq.symm⟩)
  induction levels generalizing name with
  | zero =>
      intro value h
      obtain ⟨kind, hkind, entries, rfl, hat, hfields⟩ := hread h
      have hleaf : kind.isContainer = false := MetaSchema.mem_kinds_zero.1 hkind
      rw [MetaSchema.kindFields, ← MetaSchema.kindFields_of_leaf hleaf 1] at hfields
      refine failsWith_node_object hat hfields (MetaSchema.name_nodeUnion 0) ?_
      intro name hcontainer
      rw [hleaf] at hcontainer
      cases hcontainer
  | succ levels ih =>
      intro value h
      obtain ⟨kind, -, entries, rfl, hat, hfields⟩ := hread h
      exact failsWith_node_object hat hfields (MetaSchema.name_nodeUnion levels)
        fun name _ => ih name

end

/-! ### Schemas -/

/-- What can be wrong with a description that was read, with this version and these octets for
the string table: the version is another one, the octets are no text, an entry of the table
repeats, or a node has a fault. -/
inductive IsDescriptionFault (version : Int64) (octets : List UInt8) : Error → Prop
  | version (h : version ≠ MetaSchema.version) :
      IsDescriptionFault version octets
        (.corruptToken "" (.version version.toInt MetaSchema.version.toInt))
  | encoding {fault : Utf8.Fault} (h : Utf8.decode octets = .error fault) :
      IsDescriptionFault version octets (.stringTable (.encoding fault))
  | repeated {chars : List Char} {entry : String} (h : Utf8.decode octets = .ok chars)
      (hrepeated : List.Duplicate entry (StringTable.split chars)) :
      IsDescriptionFault version octets (.stringTable (.repeated entry))
  | node {table : StringTable} {e : Error} (h : StringTable.ofBytes octets = .ok table)
      (hfault : IsNodeFault table.size e) : IsDescriptionFault version octets e

/-- Octets that were read are those of a list of octets: each of the numbers was read between 0 and
255, so the conversion refuses none of them. -/
theorem exists_octets {follow : ReadPointer} {values : List Value}
    (h : ∀ value ∈ values, Readable follow (.int "byte" 0 255) value) :
    ∃ octets : List UInt8, values = octets.map (fun byte => .int (Int64.ofInt byte.toNat)) ∧
      values.mapM octet = .ok octets := by
  have hexists : ∃ octets, values.mapM octet = .ok octets := by
    refine exists_mapM_iff.2 fun value hvalue => ?_
    obtain ⟨n, rfl, hlow, hhigh⟩ := exists_between_of_readable (by decide) (h value hvalue)
    rw [Int64.le_iff_toInt_le] at hlow hhigh
    have hrange : 0 ≤ n.toInt ∧ n.toInt < 256 := ⟨hlow, Int.lt_add_one_of_le hhigh⟩
    refine ⟨UInt8.ofNat n.toInt.toNat, ?_⟩
    rw [octet, Value.asInt?]
    dsimp only
    rw [if_pos hrange]
  obtain ⟨octets, hoctets⟩ := hexists
  refine ⟨octets, eq_map_of_octets (fun value hvalue => ?_) hoctets, hoctets⟩
  exact exists_int_of_readable (h value hvalue)

/-- The name of the schema is the first entry, which every table that was read has. -/
theorem exists_entry_zero {octets : List UInt8} {table : StringTable}
    (h : StringTable.ofBytes octets = .ok table) : ∃ name, table.entry 0 = .ok name := by
  obtain ⟨-, hne, -⟩ := StringTable.of_ofBytes h
  obtain ⟨name, rest, hentries⟩ := List.exists_cons_of_ne_nil hne
  exact ⟨name, by rw [StringTable.entry, hentries, List.getElem?_cons_zero]⟩

/-- A table is read from octets, or they are no text, or an entry repeats. -/
theorem failsWith_tableOf {values : List Value} {octets : List UInt8}
    (h : values.mapM octet = .ok octets) (version : Int64) :
    FailsWith (IsDescriptionFault version octets) (tableOf values) := by
  rw [tableOf, h, ok_bind, StringTable.ofBytes]
  cases hdecode : Utf8.decode octets with
  | error fault => exact failsWith_error_iff.2 (.encoding hdecode)
  | ok chars =>
      dsimp only
      cases hrepeated : firstRepeated? (StringTable.split chars) with
      | none => exact failsWith_ok _
      | some entry =>
          exact failsWith_error_iff.2 (.repeated hdecode (duplicate_of_firstRepeated? hrepeated))

/-- **What was read against the meta-schema is rebuilt to a schema, or refused for a reason that the
meta-schema cannot express.**  No key is ever missing or of the wrong kind, and no kind is unknown.
The branches of rebuilding for such cases are unreachable from octets, whatever the octets are. -/
theorem eq_ok_or_isDescriptionFault_of_unpackData {depth : Nat} {bytes : List UInt8}
    {options : CodecOptions} {data : Value}
    (h : unpackData (MetaSchema.fields depth) bytes options = .ok data) :
    ∃ version items octets,
      data = .object [("meta", .object [("version", .int version)]), ("fields", .array items),
        ("strings", .array (octets.map fun byte : UInt8 => .int (Int64.ofInt byte.toNat)))] ∧
      ((∃ s, schema data = .ok s) ∨
        ∃ e, schema data = .error e ∧ IsDescriptionFault version octets e) ∧
      (∀ key, schema data ≠ .error (missing key)) ∧
      ∀ tag, schema data ≠ .error (.corruptToken "" (.unknownKind tag)) := by
  obtain ⟨follow, version, items, values, rfl, hitems, hvalues⟩ := exists_of_unpackData h
  obtain ⟨octets, rfl, hoctets⟩ := exists_octets hvalues
  have hfails : FailsWith (IsDescriptionFault version octets) (schema (.object
      [("meta", .object [("version", .int version)]), ("fields", .array items),
        ("strings", .array (octets.map fun byte : UInt8 => .int (Int64.ofInt byte.toNat)))])) := by
    change FailsWith _ (if version ≠ MetaSchema.version then _ else _)
    split
    · next hversion => exact failsWith_error_iff.2 (.version hversion)
    · refine (failsWith_tableOf hoctets version).bind fun table htable => ?_
      have hread : StringTable.ofBytes octets = .ok table := by
        rw [tableOf, hoctets, ok_bind] at htable
        split at htable
        · next hread =>
          cases htable
          exact hread
        · cases htable
      obtain ⟨name, hname⟩ := exists_entry_zero hread
      have hnodes : FailsWith (IsNodeFault table.size) (nodes table items) :=
        failsWith_nodes (failsWith_node _ _) hitems
      rw [hname]
      exact (hnodes.mono fun e => .node hread).bind fun fields _ => failsWith_ok _
  refine ⟨version, items, octets, rfl, ?_, fun key hmissing => ?_, fun tag hunknown => ?_⟩
  · cases hschema : schema _ with
    | ok s => exact .inl ⟨s, rfl⟩
    | error e => exact .inr ⟨e, rfl, hfails e hschema⟩
  · cases hfails _ hmissing with
    | node _ hfault => cases hfault
  · cases hfails _ hunknown with
    | node _ hfault => cases hfault

/-- A field that is named by an entry which the table does not have. -/
theorem eq_ok_or_isDescriptionFault_of_unpackData_strayName :
    ∃ data i size, unpackData (MetaSchema.fields 1) [1, 1, 0, 10, 0, 2, 194] {} = .ok data ∧
      schema data = .error (.stringTable (.index i size)) ∧ size ≤ i := by
  obtain ⟨data, hdata, hstray⟩ := exists_eq_ok_of_toOption
    (show (unpackData (MetaSchema.fields 1) [1, 1, 0, 10, 0, 2, 194] {}).toOption.any (fun data =>
      match schema data with
      | .error (.stringTable (.index _ _)) => true
      | _ => false) = true by decide)
  split at hstray
  · next i size hschema =>
    obtain ⟨version, items, octets, -, ⟨s, hok⟩ | ⟨e, he, hfault⟩, -⟩ :=
      eq_ok_or_isDescriptionFault_of_unpackData hdata
    · rw [hschema] at hok
      cases hok
    · rw [hschema] at he
      cases he
      cases hfault with
      | node _ hfault =>
          cases hfault with
          | index hle => exact ⟨data, i, _, hdata, hschema, hle⟩
  · cases hstray

end Rebuild

end FieldGrammar
