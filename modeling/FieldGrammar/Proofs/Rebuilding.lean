import Mathlib
import FieldGrammar.Proofs.NormalDescription
import FieldGrammar.SchemaToken.Rebuild

/-!
# Rebuilding a schema from its description

Rebuilding is the inverse of describing, as long as the strings are found again at the indices
that stand for them.  A union is the one place where more is needed than looking attributes up:
its variants are put together from the options and the lists of nodes, which gives the restored
union when the options are distinct.

## Main statements

* `Rebuild.rebuilds` — a restored node is rebuilt from its description
* `Rebuild.schema_ofSchema` — a restored schema is rebuilt from its description
-/

namespace FieldGrammar

namespace Rebuild

open Describe

/-! ### Attributes -/

section

variable {table : StringTable} {indexOf : String → Int64} {entries : Entries Value} {key : String}

/-- The string is found at its index. -/
def Finds (table : StringTable) (indexOf : String → Int64) (s : String) : Prop :=
  string table (.int (indexOf s)) = .ok s

/-- A length is read from its description, since every 32-bit word is a 64-bit integer that is not
negative. -/
theorem lengthAt_of_get? {n : UInt32}
    (h : Entries.get? entries key = some (Describe.length n)) : lengthAt entries key = .ok n := by
  have hn := n.toNat_lt
  have hcast : (Int64.ofInt n.toNat).toInt = n.toNat :=
    Int64.toInt_ofInt_of_le (by omega) (by omega)
  have hlt : (n.toNat : Int) < UInt32.size := by
    have hsize : UInt32.size = 2 ^ 32 := rfl
    omega
  have hint : intAt entries key = .ok (Int64.ofInt n.toNat) := by
    rw [intAt, h]
    rfl
  rw [lengthAt, hint, ok_bind, hcast, if_pos ⟨by omega, hlt⟩, Int.toNat_natCast, UInt32.ofNat_toNat]
  rfl

/-- An enumeration is rebuilt from the indices of its options, each of which finds its option. -/
theorem enumeration_of_get? {e : Enumeration}
    (h : Entries.get? entries "options" = some (ofOptions (fun s => .int (indexOf s)) e))
    (hfinds : ∀ option ∈ e.options, Finds table indexOf option) :
    enumeration table e.name entries = .ok e := by
  have hlist : listAt entries "options" = .ok (e.options.map fun s => .int (indexOf s)) := by
    rw [listAt, h]
    rfl
  have hoptions : (e.options.map fun s => Value.int (indexOf s)).mapM (string table) =
      .ok e.options := by
    refine mapM_of_forall₂ (List.forall₂_map_left_iff.2 ?_)
    exact List.forall₂_same.2 hfinds
  rw [enumeration, hlist, ok_bind, hoptions]
  rfl

end

/-! ### Nodes -/

section

variable {table : StringTable} {indexOf : String → Int64}

/-- The first entry of a description says its kind. -/
theorem kindAt_cons (kind : Kind) (pairs : List (String × Value)) :
    kindAt (("kind", .string kind.tag) :: pairs) = .ok kind := by
  have hget : Entries.get? (("kind", .string kind.tag) :: pairs) MetaSchema.kindName =
      some (.string kind.tag) := Entries.get?_cons_self _ _ _
  rw [kindAt, hget, require, ok_bind, Value.asString?, require, ok_bind, Kind.ofTag?_tag]
  rfl

/-- The restored node is rebuilt from its description.  The table is one for the whole tree, as it
is complete before the first node is rebuilt. -/
def Rebuilds (table : StringTable) (indexOf : String → Int64) (n : Node) : Prop :=
  node table (ofNode (fun s => .int (indexOf s)) n.restored) = .ok n.restored

/-- A leaf is rebuilt by looking up its attributes.  Their names are distinct, so each is found past
the others. -/
theorem rebuilds_leaf {n : Node} (hleaf : n.kind.isContainer = false)
    (hfinds : ∀ s ∈ n.ownStrings, Finds table indexOf s) : Rebuilds table indexOf n := by
  -- Each kind has its own attributes to find; the kinds that nest nodes are excluded.
  cases n with
  | bool own =>
      have hown := hfinds own List.mem_cons_self
      rw [Rebuilds, Node.restored, ofNode, object, node, kindAt_cons, ok_bind]
      exact bind_eq_ok_iff.2 ⟨own, hown, rfl⟩
  | int own min max =>
      have hown := hfinds own List.mem_cons_self
      rw [Rebuilds, Node.restored, ofNode, object, node, kindAt_cons, ok_bind]
      exact bind_eq_ok_iff.2 ⟨own, hown, rfl⟩
  | fixed own min max precision =>
      have hown := hfinds own List.mem_cons_self
      rw [Rebuilds, Node.restored, ofNode, object, node, kindAt_cons, ok_bind]
      exact bind_eq_ok_iff.2 ⟨own, hown, rfl⟩
  | enumeration e =>
      obtain ⟨hname, hoptions⟩ := List.forall_mem_cons.1 hfinds
      rw [Rebuilds, Node.restored, ofNode, object, node, kindAt_cons, ok_bind]
      refine bind_eq_ok_iff.2 ⟨e.name, hname, ?_⟩
      exact bind_eq_ok_iff.2 ⟨e, enumeration_of_get? rfl hoptions, rfl⟩
  | enumArray own minLength maxLength e =>
      obtain ⟨hown, hrest⟩ := List.forall_mem_cons.1 hfinds
      obtain ⟨hname, hoptions⟩ := List.forall_mem_cons.1 hrest
      rw [Rebuilds, Node.restored, ofNode, object, node, kindAt_cons, ok_bind]
      refine bind_eq_ok_iff.2 ⟨own, hown, bind_eq_ok_iff.2 ⟨e.name, hname, ?_⟩⟩
      refine bind_eq_ok_iff.2 ⟨minLength, lengthAt_of_get? rfl, ?_⟩
      refine bind_eq_ok_iff.2 ⟨maxLength, lengthAt_of_get? rfl, ?_⟩
      exact bind_eq_ok_iff.2 ⟨e, enumeration_of_get? rfl hoptions, rfl⟩
  | pointer own target =>
      obtain ⟨hown, hrest⟩ := List.forall_mem_cons.1 hfinds
      have htarget := hrest target List.mem_cons_self
      rw [Rebuilds, Node.restored, ofNode, object, node, kindAt_cons, ok_bind]
      exact bind_eq_ok_iff.2 ⟨own, hown, bind_eq_ok_iff.2 ⟨target, htarget, rfl⟩⟩
  | optional | array | object | union => cases hleaf

theorem rebuilds_optional {own : String} {inner : Node} (hown : Finds table indexOf own)
    (ih : Rebuilds table indexOf inner) : Rebuilds table indexOf (.optional own inner) := by
  rw [Rebuilds, Node.restored, ofNode, object, node, kindAt_cons, ok_bind]
  exact bind_eq_ok_iff.2 ⟨own, hown, bind_eq_ok_iff.2 ⟨inner.restored, ih, rfl⟩⟩

/-- An array is rebuilt from its bounds, which are read as lengths, and its item. -/
theorem rebuilds_array {own : String} {minLength maxLength : UInt32} {item : Node}
    (hown : Finds table indexOf own) (ih : Rebuilds table indexOf item) :
    Rebuilds table indexOf (.array own minLength maxLength item) := by
  rw [Rebuilds, Node.restored, ofNode, object, node, kindAt_cons, ok_bind]
  refine bind_eq_ok_iff.2 ⟨own, hown, ?_⟩
  refine bind_eq_ok_iff.2 ⟨minLength, lengthAt_of_get? rfl, ?_⟩
  refine bind_eq_ok_iff.2 ⟨maxLength, lengthAt_of_get? rfl, ?_⟩
  exact bind_eq_ok_iff.2 ⟨item.restored, ih, rfl⟩

/-- A list of nodes is rebuilt when each of them is. -/
theorem nodes_map {fields : List Node} (ih : ∀ field ∈ fields, Rebuilds table indexOf field) :
    nodes table ((fields.map Node.restored).map (ofNode fun s => .int (indexOf s))) =
      .ok (fields.map Node.restored) := by
  induction fields with
  | nil => rfl
  | cons field rest ihrest =>
      obtain ⟨hfield, hrest⟩ := List.forall_mem_cons.1 ih
      rw [List.map_cons, List.map_cons, nodes, hfield, ok_bind, ihrest hrest, ok_bind]
      rfl

/-- An object is rebuilt from its name and the list of its fields. -/
theorem rebuilds_object {own : String} {fields : List Node} (hown : Finds table indexOf own)
    (ih : ∀ field ∈ fields, Rebuilds table indexOf field) :
    Rebuilds table indexOf (.object own fields) := by
  rw [Rebuilds, Node.restored, Node.restoredList_eq, ofNode, ofNodes_eq, object, node, kindAt_cons,
    ok_bind]
  refine bind_eq_ok_iff.2 ⟨own, hown, ?_⟩
  exact bind_eq_ok_iff.2 ⟨fields.map Node.restored, nodes_map ih, rfl⟩

/-- The variants of a union are rebuilt when the nodes in them are. -/
theorem variants_map {options : List String} {variants : Entries (List Node)}
    (ih : ∀ option ∈ options, ∀ field ∈ (Entries.get? variants option).getD [],
      Rebuilds table indexOf field) :
    Rebuild.variants table (options.map fun option =>
        .array ((Node.restoredAt variants option).map (ofNode fun s => .int (indexOf s)))) =
      .ok (options.map (Node.restoredAt variants)) := by
  induction options with
  | nil => rfl
  | cons option rest ihrest =>
      obtain ⟨hoption, hrest⟩ := List.forall_mem_cons.1 ih
      rw [List.map_cons, Rebuild.variants, Node.restoredAt_eq, nodes_map hoption, ok_bind,
        ihrest hrest, ok_bind, ← Node.restoredAt_eq]
      rfl

/-- A union is rebuilt from the options and the lists of fields, which are paired one by one.  With
distinct options the pairs are the variants in the order of the options, as the restored union has
them. -/
theorem rebuilds_union {own : String} {discriminator : Enumeration}
    {variants : Entries (List Node)} (hnodup : discriminator.options.Nodup)
    (hfinds : ∀ s ∈ (Node.union own discriminator variants).ownStrings, Finds table indexOf s)
    (ih : ∀ option ∈ discriminator.options, ∀ field ∈ (Entries.get? variants option).getD [],
      Rebuilds table indexOf field) :
    Rebuilds table indexOf (.union own discriminator variants) := by
  obtain ⟨hown, hrest⟩ := List.forall_mem_cons.1 hfinds
  obtain ⟨hname, hoptions⟩ := List.forall_mem_cons.1 hrest
  have hlists : (discriminator.options.map fun option =>
      ofVariant (fun s => .int (indexOf s)) (discriminator.options.map fun option =>
        (option, Node.restoredAt variants option)) option) =
      discriminator.options.map fun option =>
        .array ((Node.restoredAt variants option).map (ofNode fun s => .int (indexOf s))) := by
    refine List.map_congr_left fun option hoption => ?_
    rw [ofVariant_eq, Node.get?_restored hoption, Option.getD_some, Node.restoredAt_eq]
  have hzip : Entries.ofList (discriminator.options.zip
        (discriminator.options.map (Node.restoredAt variants))) =
      discriminator.options.map fun option => (option, Node.restoredAt variants option) := by
    rw [← List.map_prod_left_eq_zip]
    exact Entries.ofList_of_nodup (by simpa [Entries.keys, Function.comp_def] using hnodup)
  rw [Rebuilds, Node.restored, ofNode, hlists, object, node, kindAt_cons, ok_bind]
  refine bind_eq_ok_iff.2 ⟨own, hown, bind_eq_ok_iff.2 ⟨discriminator.name, hname, ?_⟩⟩
  refine bind_eq_ok_iff.2 ⟨discriminator, enumeration_of_get? rfl hoptions, ?_⟩
  refine bind_eq_ok_iff.2 ⟨_, rfl, ?_⟩
  rw [if_neg (not_not_intro (List.length_map _))]
  refine bind_eq_ok_iff.2 ⟨_, variants_map ih, ?_⟩
  rw [hzip]
  rfl

/-- **A restored node is rebuilt from its description** when the node is valid and its strings are
found. Validity is used for the options of unions, which are put together with the lists of fields.
-/
theorem rebuilds {n : Node} (hvalid : n.Valid)
    (hfinds : ∀ m ∈ n.walk, ∀ s ∈ m.ownStrings, Finds table indexOf s) :
    Rebuilds table indexOf n := by
  induction n using Node.induction_children with
  | step n ih =>
      have hself := hfinds n (Node.mem_walk_self n)
      have hchildren : ∀ child ∈ n.children, Rebuilds table indexOf child := by
        intro child hchild
        have hwalk : child.walk ⊆ n.walk := fun m hm => Node.mem_walk.2 (.inr ⟨child, hchild, hm⟩)
        exact ih child hchild (hvalid.of_mem_walk (hwalk (Node.mem_walk_self child)))
          fun m hm => hfinds m (hwalk hm)
      cases n with
      | bool | int | fixed | enumeration | enumArray | pointer => exact rebuilds_leaf rfl hself
      | optional own inner =>
          exact rebuilds_optional (hself own List.mem_cons_self)
            (hchildren inner (List.mem_singleton_self inner))
      | array own minLength maxLength item =>
          exact rebuilds_array (hself own List.mem_cons_self)
            (hchildren item (List.mem_singleton_self item))
      | object own fields => exact rebuilds_object (hself own List.mem_cons_self) hchildren
      | union own discriminator variants =>
          refine rebuilds_union (Node.valid_union_iff.1 hvalid).1.2 hself ?_
          intro option hoption field hfield
          exact hchildren field (Node.mem_children_union.2 ⟨option, hoption, hfield⟩)

end

/-! ### Schemas -/

section

variable {table : StringTable}

/-- A string of a table is found at its index, if the table is not too long. -/
theorem finds_idxOf {s : String} (hs : s ∈ table.entries)
    (hlength : table.entries.length ≤ 65536) :
    Finds table (fun s => Int64.ofInt (table.entries.idxOf s)) s := by
  have hlt := List.idxOf_lt_length_of_mem hs
  have hcast : (Int64.ofInt (table.entries.idxOf s)).toInt = table.entries.idxOf s :=
    Int64.toInt_ofInt_of_le (by omega) (by omega)
  rw [Finds, string, Value.asInt?]
  dsimp only
  rw [hcast, if_pos (by omega), Int.toNat_natCast, StringTable.entry_idxOf hs]

/-- The table is read back from its octets as numbers, when it has an entry, none twice, and no
string that holds the separator. -/
theorem tableOf_toBytes (hne : table.entries ≠ []) (hnodup : table.entries.Nodup)
    (h : ∀ s ∈ table.entries, StringTable.separator ∉ s.toList) :
    tableOf (table.toBytes.map fun byte => .int (Int64.ofInt byte.toNat)) = .ok table := by
  have hoctets : (table.toBytes.map fun byte => Value.int (Int64.ofInt byte.toNat)).mapM octet =
      .ok table.toBytes := by
    refine mapM_of_forall₂ (List.forall₂_map_left_iff.2 (List.forall₂_same.2 fun byte _ => ?_))
    have hbyte := byte.toNat_lt
    have hcast : (Int64.ofInt byte.toNat).toInt = byte.toNat :=
      Int64.toInt_ofInt_of_le (by omega) (by omega)
    rw [octet, Value.asInt?]
    dsimp only
    rw [hcast, if_pos (by omega), Int.toNat_natCast, UInt8.ofNat_toNat]
  rw [tableOf, hoctets, ok_bind, StringTable.ofBytes_toBytes hne hnodup h]
  rfl

/-- Rebuilding a schema takes the version, the table, the first entry and the fields.  The first
entry of the table is the name of the schema. -/
theorem schema_eq_ok_iff {header : Entries Value} {items octets : List Value} {s : Schema} :
    schema (.object [("meta", .object header), ("fields", .array items),
        ("strings", .array octets)]) = .ok s ↔
      intAt header "version" = .ok MetaSchema.version ∧ ∃ table, tableOf octets = .ok table ∧
        table.entry 0 = .ok s.name ∧ nodes table items = .ok s.fields := by
  generalize hdata : [("meta", Value.object header), ("fields", .array items),
    ("strings", .array octets)] = root
  have hroot : require "root" (Value.asObject? (.object root)) = .ok root := rfl
  have hheader : require "meta" ((Entries.get? root "meta").bind Value.asObject?) =
      .ok header := hdata ▸ rfl
  have hoctets : listAt root "strings" = .ok octets := hdata ▸ rfl
  have hnodes : ∀ table, nodesAt table root "fields" = nodes table items := fun _ => hdata ▸ rfl
  rw [schema, hroot, ok_bind, hheader, ok_bind, bind_eq_ok_iff]
  simp only [hoctets, hnodes, ok_bind]
  constructor
  · rintro ⟨version, hversion, h⟩
    split at h
    · cases h
    · next heq =>
      rw [bind_eq_ok_iff] at h
      obtain ⟨table, htable, h⟩ := h
      split at h
      · cases h
      · next name hname =>
        obtain ⟨fields, hfields, h⟩ := bind_eq_ok_iff.1 h
        cases h
        rw [not_not.1 heq] at hversion
        exact ⟨hversion, table, htable, hname, hfields⟩
  · rintro ⟨hversion, table, htable, hname, hfields⟩
    refine ⟨_, hversion, ?_⟩
    rw [if_neg (not_not_intro rfl), htable, ok_bind, hname]
    dsimp only
    rw [hfields]
    rfl

/-- **A restored schema is rebuilt from its description** when it is valid and its strings can
be told apart and counted. -/
theorem schema_ofSchema {name : String} {fields : List Node}
    (hvalid : ∀ field ∈ fields, field.Valid)
    (hseparator : ∀ s ∈ schemaStrings name fields, StringTable.separator ∉ s.toList)
    (hstrings : (schemaStrings name fields).toFinset.card ≤ 4096) :
    schema (ofSchema (Describe.tableOf name fields) (fields.map Node.restored)) =
      .ok ⟨name, fields.map Node.restored⟩ := by
  rw [← length_tableOf] at hstrings
  refine schema_eq_ok_iff.2 ⟨rfl, Describe.tableOf name fields, ?_, ?_, ?_⟩
  · exact tableOf_toBytes tableOf_ne_nil nodup_tableOf fun s hs => hseparator s (mem_tableOf.1 hs)
  · rw [← idxOf_name_tableOf]
    exact StringTable.entry_idxOf (mem_tableOf.2 List.mem_cons_self)
  · refine nodes_map fun field hfield => rebuilds (hvalid field hfield) fun m hm s hs => ?_
    have hwalk : m ∈ Node.walkList fields := Node.mem_walkList.2 ⟨field, hfield, hm⟩
    have hmem := List.mem_cons_of_mem name (List.mem_flatMap.2 ⟨m, hwalk, hs⟩)
    exact finds_idxOf (mem_tableOf.2 hmem) (hstrings.trans (by decide))

end

end Rebuild

end FieldGrammar
