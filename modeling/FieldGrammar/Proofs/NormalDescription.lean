import Mathlib
import FieldGrammar.Proofs.Encodable
import FieldGrammar.Proofs.Projection
import FieldGrammar.Proofs.Restored

/-!
# Descriptions as they are read

A description that was packed is read back in normal form.  Nothing in it is optional and no
pointer occurs in the meta-schema, so the normal form differs from the description in two places
only: a fixed-point attribute is read as the number at its step, and the variants of a union are
read in the order of its options.  These are the changes of `Node.restored`.

## Main statements

* `MetaSchema.comesBack` — the description of a node, read at a level that the node fits
* `MetaSchema.normalData_ofSchema` — the description of a schema
-/

namespace FieldGrammar

namespace MetaSchema

open Packing Describe

/-! ### Descriptions in normal form -/

section

variable {follow : ProjectPointer} {indexOf : String → Int64} {levels : Nat} {name : String}

/-- **The normal form of a description at a level** has the kind and then the normal forms of what
is described, if that is in the order of the fields of the kind. -/
theorem projectNode_nodeUnion {kind : Kind} (hkind : kind ∈ kinds levels) {rest : Entries Value}
    (hkeys : Entries.keys rest = (kindFields levels kind).map Node.name) :
    projectNode normalLeaf follow (nodeUnion levels name)
        (.object (("kind", .string kind.tag) :: rest)) =
      .object (("kind", .string kind.tag) :: List.zipWith (fun field entry =>
          (field.name, projectNode normalLeaf follow field entry.2))
        (kindFields levels kind) rest) := by
  have hchosen : Entries.getOrNull (("kind", .string kind.tag) :: rest) kindName =
      .string kind.tag := Entries.getOrNull_cons_self ..
  have hskipped : projectFields normalLeaf follow (kindFields levels kind)
        (("kind", .string kind.tag) :: rest) =
      projectFields normalLeaf follow (kindFields levels kind) rest := by
    rw [projectFields_eq, projectFields_eq]
    exact List.map_congr_left fun field hfield => by rw [getOrNull_kindFields hfield]
  have hfilter : ∀ pair ∈ projectFields normalLeaf follow (kindFields levels kind) rest,
      pair.1 ≠ kindName := by
    intro pair hpair heq
    rw [projectFields_eq, List.mem_map] at hpair
    obtain ⟨field, hfield, rfl⟩ := hpair
    exact kindName_notMem_names levels kind (heq ▸ List.mem_map_of_mem hfield)
  rw [nodeUnion_eq, unionOver, projectNode_union_of_string hchosen, get?_variants hkind,
    Option.getD_some, hskipped,
    List.filter_eq_self.2 fun pair hpair => decide_eq_true (hfilter pair hpair),
    projectFields_eq_zipWith hkeys (nodup_names levels kind)]
  rfl

/-- The options of an enumeration come back as they are: they are indices, and the normal form of an
integer is the integer. -/
theorem projectNode_options (e : Enumeration) :
    projectNode normalLeaf follow (indexList name) (ofOptions (fun s => .int (indexOf s)) e) =
      ofOptions (fun s => .int (indexOf s)) e := by
  rw [indexList, ofOptions, projectNode, Value.asArray?]
  dsimp only
  rw [List.map_map]
  rfl

/-- The description of a node comes back as that of the restored node, from every level that the
node fits.  Only depth counts here: the normal form does not ask whether an attribute is within its
limits. -/
def ComesBack (follow : ProjectPointer) (indexOf : String → Int64) (n : Node) : Prop :=
  ∀ (levels : Nat) (name : String), n.depth ≤ levels + 1 →
    projectNode normalLeaf follow (nodeUnion levels name) (ofNode (fun s => .int (indexOf s)) n) =
      ofNode (fun s => .int (indexOf s)) n.restored

/-- A leaf comes back as restored.  Fixed-point attributes come back as the numbers at their steps;
all others come back as they are. -/
theorem comesBack_leaf {n : Node} (hleaf : n.kind.isContainer = false) :
    ComesBack follow indexOf n := by
  intro levels name _
  cases n with
  | bool | int | fixed | pointer =>
      rw [ofNode, object, projectNode_nodeUnion (mem_kinds_of_leaf rfl levels)
        (by rw [kindFields_of_leaf rfl]; rfl), kindFields_of_leaf rfl]
      rfl
  | enumeration | enumArray =>
      rw [ofNode, object, projectNode_nodeUnion (mem_kinds_of_leaf rfl levels)
        (by rw [kindFields_of_leaf rfl]; rfl), kindFields_of_leaf rfl]
      simp only [attributes, List.zipWith_cons_cons, projectNode_options]
      rfl
  | optional | array | object | union => cases hleaf

/-- A node that nests others does not fit the innermost level.  Above, what it describes in the
order of the fields comes back where it stands. -/
theorem comesBack_container {n : Node} {rest : Entries Value}
    (hcontainer : n.kind.isContainer = true)
    (hnode : ofNode (fun s => .int (indexOf s)) n = .object (("kind", .string n.kind.tag) :: rest))
    (hkeys : Entries.keys rest = (attributes n.kind).map Node.name ++
      (contents (fun name => .bool name) n.kind).map Node.name)
    (h : ∀ levels, (∀ child ∈ n.children, child.depth ≤ levels + 1) →
      .object (("kind", .string n.kind.tag) :: List.zipWith (fun field entry =>
          (field.name, projectNode normalLeaf follow field entry.2))
        (attributes n.kind ++ contents (nodeUnion levels) n.kind) rest) =
        ofNode (fun s => .int (indexOf s)) n.restored) : ComesBack follow indexOf n := by
  intro levels name hdepth
  cases levels with
  | zero =>
      rw [Node.depth_le_one_iff.1 hdepth] at hcontainer
      cases hcontainer
  | succ levels =>
      rw [hnode, projectNode_nodeUnion (mem_kinds_succ levels _)
        (hkeys.trans (names_kindFields levels n.kind).symm), kindFields]
      exact h levels (Node.depth_le_iff_children.1 hdepth)

theorem comesBack_optional (own : String) {inner : Node} (ih : ComesBack follow indexOf inner) :
    ComesBack follow indexOf (.optional own inner) := by
  refine comesBack_container rfl rfl rfl fun levels hchildren => ?_
  have hinner := ih levels "inner" (hchildren inner (List.mem_singleton_self inner))
  simp only [Node.kind, attributes, contents, List.cons_append, List.nil_append,
    List.zipWith_cons_cons, name_nodeUnion, hinner]
  rfl

/-- The bounds of an array come back as they are, and its item comes back as restored. -/
theorem comesBack_array (own : String) (minLength maxLength : UInt32) {item : Node}
    (ih : ComesBack follow indexOf item) :
    ComesBack follow indexOf (.array own minLength maxLength item) := by
  refine comesBack_container rfl rfl rfl fun levels hchildren => ?_
  have hitem := ih levels "item" (hchildren item (List.mem_singleton_self item))
  simp only [Node.kind, attributes, contents, List.cons_append, List.nil_append,
    List.zipWith_cons_cons, name_nodeUnion, hitem]
  rfl

/-- A list of descriptions comes back when each of them does. -/
theorem projectNode_nodeList {fields : List Node} (ih : ∀ field ∈ fields,
      ComesBack follow indexOf field)
    (hdepth : ∀ field ∈ fields, field.depth ≤ levels + 1) :
    projectNode normalLeaf follow (nodeList name (nodeUnion levels "field"))
        (.array (fields.map (ofNode fun s => .int (indexOf s)))) =
      .array ((fields.map Node.restored).map (ofNode fun s => .int (indexOf s))) := by
  rw [nodeList, projectNode, Value.asArray?]
  dsimp only
  rw [List.map_map, List.map_map]
  congr 1
  exact List.map_congr_left fun field hfield => ih field hfield levels "field" (hdepth field hfield)

/-- The fields of an object come back in their order, each as restored. -/
theorem comesBack_object (own : String) {fields : List Node}
    (ih : ∀ field ∈ fields, ComesBack follow indexOf field) :
    ComesBack follow indexOf (.object own fields) := by
  refine comesBack_container rfl rfl rfl fun levels hchildren => ?_
  rw [ofNodes_eq, Node.restored, Node.restoredList_eq, ofNode, ofNodes_eq]
  simp only [Node.kind, attributes, contents, List.cons_append, List.nil_append,
    List.zipWith_cons_cons, projectNode_nodeList ih hchildren]
  rfl

/-- The variants of a union come back in the order of its options, which is the order they are
described in. -/
theorem comesBack_union (own : String) (discriminator : Enumeration)
    {variants : Entries (List Node)}
    (ih : ∀ entry ∈ variants, ∀ field ∈ entry.2, ComesBack follow indexOf field) :
    ComesBack follow indexOf (.union own discriminator variants) := by
  refine comesBack_container rfl rfl rfl fun levels hchildren => ?_
  -- Only variants that an option finds are described, so the hypothesis on all stored fields is
  -- used for these.
  have hvariant : ∀ option ∈ discriminator.options,
      projectNode normalLeaf follow (nodeList "variant" (nodeUnion levels "field"))
          (ofVariant (fun s => .int (indexOf s)) variants option) =
        ofVariant (fun s => .int (indexOf s)) (discriminator.options.map fun option =>
          (option, Node.restoredAt variants option)) option := by
    intro option hoption
    rw [ofVariant_eq, ofVariant_eq, Node.get?_restored hoption, Option.getD_some]
    refine projectNode_nodeList (fun field hfield => ?_) fun field hfield => ?_
    · obtain ⟨entry, hentry, hmem⟩ := Entries.exists_mem_of_mem_getD hfield
      exact ih entry hentry field hmem
    · exact hchildren field (Node.mem_children_union.2 ⟨option, hoption, hfield⟩)
  have hvariants : projectNode normalLeaf follow
        (.array "variants" 1 256 (nodeList "variant" (nodeUnion levels "field")))
        (.array (discriminator.options.map fun option =>
          ofVariant (fun s => .int (indexOf s)) variants option)) =
      .array (discriminator.options.map fun option =>
        ofVariant (fun s => .int (indexOf s)) (discriminator.options.map fun option =>
          (option, Node.restoredAt variants option)) option) := by
    rw [projectNode, Value.asArray?]
    dsimp only
    rw [List.map_map]
    congr 1
    exact List.map_congr_left hvariant
  simp only [Node.kind, attributes, contents, List.cons_append, List.nil_append,
    List.zipWith_cons_cons, projectNode_options, hvariants]
  rfl

/-- **The description of a node comes back as that of the restored node.**  Restoring is defined on
nodes, without a description, and this is why it describes what comes out of a token. -/
theorem comesBack (n : Node) : ComesBack follow indexOf n := by
  induction n with
  | bool | int | fixed | enumeration | enumArray | pointer => exact comesBack_leaf rfl
  | optional own inner ih => exact comesBack_optional own ih
  | array own minLength maxLength item ih => exact comesBack_array own minLength maxLength ih
  | object own fields ih => exact comesBack_object own ih
  | union own discriminator variants ih => exact comesBack_union own discriminator ih

end

/-- **The description of a schema comes back as that of the restored fields.**  The table and the
version come back as they are, being integers. -/
theorem normalData_ofSchema {table : StringTable} {fields : List Node} {options : CodecOptions}
    (hdepth : ∀ field ∈ fields, field.depth ≤ options.maxDepth) :
    normalData (MetaSchema.fields options.maxDepth) (ofSchema table fields) options =
      ofSchema table (fields.map Node.restored) := by
  have hlevels : ∀ field ∈ fields, field.depth ≤ (options.maxDepth - 1) + 1 := by
    intro field hfield
    have hle := hdepth field hfield
    have hpos := field.one_le_depth
    omega
  have hfields : ∀ follow, projectNode normalLeaf follow
      (nodeList "fields" (nodeUnion (options.maxDepth - 1) "field"))
        (.array (fields.map (ofNode table.indexValue))) =
          .array ((fields.map Node.restored).map (ofNode table.indexValue)) := fun follow =>
    projectNode_nodeList (fun field _ => comesBack field) hlevels
  have hstrings : ∀ follow, projectNode normalLeaf follow
      (.array "strings" 0 65535 (.int "byte" 0 255))
        (.array (table.toBytes.map fun byte => .int (Int64.ofInt byte.toNat))) =
          .array (table.toBytes.map fun byte => .int (Int64.ofInt byte.toNat)) := by
    intro follow
    rw [projectNode, Value.asArray?]
    dsimp only
    rw [List.map_map]
    rfl
  rw [normalData, projectData, ofSchema, Value.asObject?]
  dsimp only
  rw [projectFields_eq_zipWith rfl (nodup_names_fields _), MetaSchema.fields]
  generalize followProject normalLeaf _ options.pointerDepth = follow
  simp only [List.zipWith_cons_cons, hfields, hstrings]
  rfl

end MetaSchema

end FieldGrammar
