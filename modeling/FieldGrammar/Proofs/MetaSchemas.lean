import Mathlib
import FieldGrammar.Proofs.Trees
import FieldGrammar.Proofs.Writing
import FieldGrammar.SchemaToken.MetaSchema

/-!
# The meta-schema, level by level

At every level of nesting the meta-schema offers a union over some kinds, and the fields of a
kind are its attributes followed by the nodes that it nests, one level further down.  This module
says so in one equation, shows once what it takes for a property to hold of every node of the
meta-schema, of which validity is an instance, and says when an object can be written against the
union of a level: its kind has to be offered there, and each field of the kind has to be writable.
A description lists its entries in the order of the fields, so this is said of the two lists side
by side.

## Main definitions

* `MetaSchema.kinds`, `MetaSchema.kindFields` — what a level offers
* `MetaSchema.Pervasive` — a property that all nodes of the meta-schema have one by one
* `Packing.Writable` — a value can be written against a node

## Main statements

* `MetaSchema.Pervasive.of_mem_fields` — such a property holds at every level
* `MetaSchema.validate_fields` — the meta-schema is valid
* `MetaSchema.writable_nodeUnion_iff`, `MetaSchema.writable_nodeUnion_iff_forall₂` — what can be
  written at a level
-/

namespace FieldGrammar

namespace Packing

/-! ### Writable values -/

variable {follow : WritePointer}

/-- The value can be written against the node.  Which bits are written is not of interest here, only
that there are any. -/
def Writable (follow : WritePointer) (node : Node) (value : Value) : Prop :=
  ∃ bits, writeNode follow node value = .ok bits

/-- Fields can be written when each of them can. -/
theorem exists_writeFields_iff {fields : List Node} {entries : Entries Value} :
    (∃ bits, writeFields follow fields entries = .ok bits) ↔
      ∀ field ∈ fields, Writable follow field (Entries.getOrNull entries field.name) := by
  induction fields with
  | nil => simp [writeFields]
  | cons field rest ih =>
      rw [List.forall_mem_cons, ← ih]
      simp only [writeFields, bind_eq_ok_iff]
      constructor
      · rintro ⟨_, first, hfirst, more, hmore, -⟩
        exact ⟨⟨first, hfirst⟩, more, hmore⟩
      · rintro ⟨⟨first, hfirst⟩, more, hmore⟩
        exact ⟨_, first, hfirst, more, hmore, rfl⟩

theorem writable_int_iff {name : String} {min max n : Int64} :
    Writable follow (.int name min max) (.int n) ↔ min ≤ n ∧ n ≤ max := by
  simp [Writable, writeNode_int_eq_ok_iff, Value.asInt?]

theorem writable_fixed_iff {name : String} {min max precision x : Float} :
    Writable follow (.fixed name min max precision) (.fixed x) ↔ x.isFinite = true ∧
      (Grid.ofPrecision precision).stepsOf min ≤ (Grid.ofPrecision precision).stepsOf x ∧
      (Grid.ofPrecision precision).stepsOf x ≤ (Grid.ofPrecision precision).stepsOf max := by
  simp [Writable, writeNode_fixed_eq_ok_iff, Value.asFixed?]

/-- An array can be written when its length is within the bounds and each of its elements can be
written. -/
theorem writable_array_iff {name : String} {minLength maxLength : UInt32} {item : Node}
    {items : List Value} :
    Writable follow (.array name minLength maxLength item) (.array items) ↔
      (minLength.toNat ≤ items.length ∧ items.length ≤ maxLength.toNat) ∧
        ∀ element ∈ items, Writable follow item element := by
  simp only [Writable, writeNode_array_eq_ok_iff, Value.array.injEq, writeLength_eq_ok_iff]
  constructor
  · rintro ⟨-, _, length, parts, rfl, ⟨hlength, -⟩, hparts, -⟩
    refine ⟨hlength, fun element helement => ?_⟩
    obtain ⟨i, hi, rfl⟩ := List.getElem_of_mem helement
    exact ⟨_, hparts.get hi (hparts.length_eq ▸ hi)⟩
  · rintro ⟨hlength, hitems⟩
    obtain ⟨parts, hparts⟩ := exists_mapM_iff.2 hitems
    exact ⟨_, _, _, parts, rfl, ⟨hlength, rfl⟩, forall₂_of_mapM hparts, rfl⟩

/-- An object can be written when the entry of each field can be; what else it holds does not
matter. -/
theorem writable_object_iff {name : String} {fields : List Node} {entries : Entries Value} :
    Writable follow (.object name fields) (.object entries) ↔
      ∀ field ∈ fields, Writable follow field (Entries.getOrNull entries field.name) := by
  rw [← exists_writeFields_iff]
  simp [Writable, writeNode_object_eq_ok_iff]

/-- An object can be written against a union when it names an option and the fields of its variant
can be written. -/
theorem writable_union_iff {name : String} {discriminator : Enumeration}
    {variants : Entries (List Node)} {entries : Entries Value} {option : String}
    (hchosen : Entries.getOrNull entries discriminator.name = .string option) :
    Writable follow (.union name discriminator variants) (.object entries) ↔
      option ∈ discriminator.options ∧ ∀ field ∈ (Entries.get? variants option).getD [],
        Writable follow field (Entries.getOrNull entries field.name) := by
  rw [← exists_writeFields_iff, Writable]
  simp only [writeNode_union_eq_ok_iff, Value.object.injEq]
  constructor
  · rintro ⟨_, _, found, head, rest, rfl, hhead, hrest, -⟩
    obtain ⟨hfound, -⟩ := writeOption_eq_ok_iff.1 hhead
    obtain rfl : option = found := Value.string.inj (hchosen.symm.trans hfound)
    exact ⟨mem_of_writeOption hhead, rest, hrest⟩
  · rintro ⟨hoption, rest, hrest⟩
    obtain ⟨head, hhead⟩ := exists_writeOption hoption
    exact ⟨_, entries, option, head, rest, rfl, hchosen ▸ hhead, hrest, rfl⟩

end Packing

/-- No two kinds have the same tag, so that a tag tells the kind. -/
theorem Kind.tag_injective : Function.Injective Kind.tag := by
  intro a b h
  have hsome := ofTag?_tag a
  rw [h, ofTag?_tag, Option.some.injEq] at hsome
  exact hsome.symm

namespace MetaSchema

/-! ### What a level offers -/

/-- The kinds that are offered with a number of levels below. -/
def kinds : (levels : Nat) → List Kind
  | 0 => leafKinds
  | _ + 1 => Kind.all

/-- The fields of a kind with a number of levels below. -/
def kindFields : (levels : Nat) → Kind → List Node
  | 0, kind => attributes kind
  | levels + 1, kind => attributes kind ++ contents (nodeUnion levels) kind

/-- **One equation for every level**: the union of a level offers its kinds, each with its fields.
The definition has one case for the innermost level and one for all others. -/
theorem nodeUnion_eq (levels : Nat) (name : String) :
    nodeUnion levels name = unionOver name (kinds levels) (kindFields levels) := by
  cases levels <;> rfl

@[simp] theorem name_nodeUnion (levels : Nat) (name : String) :
    (nodeUnion levels name).name = name := by
  cases levels <;> rfl

theorem mem_kinds_zero {kind : Kind} : kind ∈ kinds 0 ↔ kind.isContainer = false := by
  cases kind <;> decide

theorem mem_kinds_succ (levels : Nat) (kind : Kind) : kind ∈ kinds (levels + 1) :=
  kind.mem_all

/-- A leaf kind is offered at every level. -/
theorem mem_kinds_of_leaf {kind : Kind} (h : kind.isContainer = false) (levels : Nat) :
    kind ∈ kinds levels := by
  cases levels with
  | zero => exact mem_kinds_zero.2 h
  | succ levels => exact mem_kinds_succ levels kind

/-- The fields of a leaf kind are its attributes at every level. -/
theorem kindFields_of_leaf {kind : Kind} (h : kind.isContainer = false) (levels : Nat) :
    kindFields levels kind = attributes kind := by
  cases levels with
  | zero => rfl
  | succ levels => cases kind <;> first | rfl | cases h

private theorem nodup_tags (levels : Nat) : ((kinds levels).map Kind.tag).Nodup := by
  cases levels with
  | zero => decide
  | succ levels => exact (by decide : (Kind.all.map Kind.tag).Nodup)

private theorem tags_ne_nil (levels : Nat) : (kinds levels).map Kind.tag ≠ [] := by
  cases levels with
  | zero => decide
  | succ levels => exact (by decide : Kind.all.map Kind.tag ≠ [])

/-- The variant of a kind that is offered. -/
theorem get?_variants {kinds : List Kind} {kind : Kind} (hkind : kind ∈ kinds)
    (fields : Kind → List Node) :
    Entries.get? (kinds.map fun kind => (kind.tag, fields kind)) kind.tag =
      some (fields kind) := by
  induction kinds with
  | nil => cases hkind
  | cons first rest ih =>
      rw [List.map_cons, Entries.get?_cons]
      split
      · next h => rw [Kind.tag_injective h]
      · next h =>
        refine ih ((List.mem_cons.1 hkind).resolve_left ?_)
        rintro rfl
        exact h rfl

/-! ### The names of a kind -/

/-- The names of nested nodes do not depend on how deep they may nest. -/
theorem names_kindFields (levels : Nat) (kind : Kind) :
    (kindFields (levels + 1) kind).map Node.name =
      (attributes kind).map Node.name ++
        (contents (fun name => .bool name) kind).map Node.name := by
  rw [kindFields, List.map_append]
  cases kind <;> simp only [contents, nodeList, List.map_cons, name_nodeUnion] <;> rfl

/-- The fields of a kind have distinct names, at every level alike, since the names are the same at
all of them. -/
theorem nodup_names (levels : Nat) (kind : Kind) :
    ((kindFields levels kind).map Node.name).Nodup := by
  cases levels with
  | zero => cases kind <;> decide
  | succ levels =>
      rw [names_kindFields]
      cases kind <;> decide

/-- No field of a kind has the name of the discriminator. -/
theorem kindName_notMem_names (levels : Nat) (kind : Kind) :
    kindName ∉ (kindFields levels kind).map Node.name := by
  cases levels with
  | zero => cases kind <;> decide
  | succ levels =>
      rw [names_kindFields]
      cases kind <;> decide

/-- The entry of the kind is passed over by the fields of the kind. -/
theorem getOrNull_kindFields {levels : Nat} {kind : Kind} {field : Node}
    (hfield : field ∈ kindFields levels kind) (value : Value) (rest : Entries Value) :
    Entries.getOrNull (("kind", value) :: rest) field.name =
      Entries.getOrNull rest field.name := by
  refine Entries.getOrNull_cons_of_ne (fun heq => ?_) value rest
  exact kindName_notMem_names levels kind (List.mem_map.2 ⟨field, hfield, heq.symm⟩)

theorem nodup_names_fields (depth : Nat) : ((fields depth).map Node.name).Nodup := by
  simp [fields, nodeList, Node.name]

/-! ### All nodes of the meta-schema -/

/-- A property that the nodes of the meta-schema have one by one, at every level.  The fields are
the nodes that the meta-schema is composed of; validity and the absence of pointers are instances.
-/
structure Pervasive (P : Node → Prop) : Prop where
  int : ∀ name low high, low ≤ high → P (.int name low high)
  fixedBound : ∀ name, P (fixedBound name)
  precision : P precision
  array : ∀ name minLength maxLength item, minLength ≤ maxLength →
    P (.array name minLength maxLength item)
  object : ∀ name fields, (fields.map Node.name).Nodup → P (.object name fields)
  union : ∀ levels name, P (nodeUnion levels name)

/-- The node and everything below it has the property. -/
def Throughout (P : Node → Prop) (node : Node) : Prop :=
  ∀ m ∈ node.walk, P m

namespace Pervasive

variable {P : Node → Prop} (law : Pervasive P)

include law

/-- The attributes of every kind have a pervasive property, since they are composed of the nodes
that the property is known for. -/
theorem throughout_attributes (kind : Kind) :
    ∀ field ∈ attributes kind, Throughout P field := by
  have hindex : ∀ name, Throughout P (index name) := fun name =>
    (Node.forall_mem_walk_leaf_iff rfl).2 (law.int name _ _ (by decide))
  have hlength : ∀ name, Throughout P (length name) := fun name =>
    (Node.forall_mem_walk_leaf_iff rfl).2 (law.int name _ _ (by decide))
  have hint : ∀ name, Throughout P (intBound name) := fun name =>
    (Node.forall_mem_walk_leaf_iff rfl).2 (law.int name _ _ (by decide))
  have hlist : ∀ name, Throughout P (indexList name) := fun name =>
    Node.forall_mem_walk_iff.2
      ⟨law.array name _ _ _ (by decide), List.forall_mem_singleton.2 (hindex _)⟩
  have hbound : ∀ name, Throughout P (MetaSchema.fixedBound name) := fun name =>
    (Node.forall_mem_walk_leaf_iff rfl).2 (law.fixedBound name)
  have hprecision : Throughout P MetaSchema.precision :=
    (Node.forall_mem_walk_leaf_iff rfl).2 law.precision
  cases kind <;> simp [attributes, hindex, hlength, hint, hlist, hbound, hprecision]

theorem throughout_nodeList (name : String) {field : Node} (h : Throughout P field) :
    Throughout P (nodeList name field) :=
  Node.forall_mem_walk_iff.2
    ⟨law.array name _ _ _ (by decide), List.forall_mem_singleton.2 h⟩

/-- The nodes that a kind nests have the property when those of the next level have it. -/
theorem throughout_contents {nested : String → Node} (h : ∀ name, Throughout P (nested name))
    (kind : Kind) : ∀ field ∈ contents nested kind, Throughout P field := by
  have hlist : ∀ name name', Throughout P (nodeList name (nested name')) := fun name name' =>
    law.throughout_nodeList name (h name')
  have hvariants :
      Throughout P (.array "variants" 1 256 (nodeList "variant" (nested "field"))) :=
    Node.forall_mem_walk_iff.2
      ⟨law.array _ _ _ _ (by decide), List.forall_mem_singleton.2 (hlist _ _)⟩
  cases kind <;> simp [contents, h, hlist, hvariants]

/-- A union over kinds adds itself to the nodes of its fields. -/
theorem throughout_nodeUnion_of_fields {levels : Nat} (name : String)
    (h : ∀ kind, ∀ field ∈ kindFields levels kind, Throughout P field) :
    Throughout P (nodeUnion levels name) := by
  refine Node.forall_mem_walk_iff.2 ⟨law.union levels name, fun child hchild => ?_⟩
  rw [nodeUnion_eq, unionOver] at hchild
  obtain ⟨option, hoption, hmem⟩ := Node.mem_children_union.1 hchild
  obtain ⟨kind, hkind, rfl⟩ := List.mem_map.1 hoption
  rw [get?_variants hkind, Option.getD_some] at hmem
  exact h kind child hmem

/-- Every node of a level has the property, by induction on the levels below it. -/
theorem throughout_nodeUnion (levels : Nat) (name : String) :
    Throughout P (nodeUnion levels name) := by
  induction levels generalizing name with
  | zero => exact law.throughout_nodeUnion_of_fields name law.throughout_attributes
  | succ levels ih =>
      refine law.throughout_nodeUnion_of_fields name fun kind => ?_
      exact List.forall_mem_append.2
        ⟨law.throughout_attributes kind, law.throughout_contents ih kind⟩

/-- Every node of the meta-schema has the property, whatever the bound on depth. -/
theorem of_mem_fields {depth : Nat} {m : Node} (hm : m ∈ Node.walkList (fields depth)) : P m := by
  have hint : ∀ name, Throughout P (.int name 0 255) := fun name =>
    (Node.forall_mem_walk_leaf_iff rfl).2 (law.int name _ _ (by decide))
  have hversion : Throughout P (.object "meta" [.int "version" 0 255]) :=
    Node.forall_mem_walk_iff.2
      ⟨law.object _ _ (by decide), List.forall_mem_singleton.2 (hint "version")⟩
  have hstrings : Throughout P (.array "strings" 0 65535 (.int "byte" 0 255)) :=
    Node.forall_mem_walk_iff.2
      ⟨law.array _ _ _ _ (by decide), List.forall_mem_singleton.2 (hint "byte")⟩
  have hfields := law.throughout_nodeList "fields" (law.throughout_nodeUnion (depth - 1) "field")
  obtain ⟨field, hfield, hm⟩ := Node.mem_walkList.1 hm
  simp only [fields, List.mem_cons, List.not_mem_nil, or_false] at hfield
  rcases hfield with rfl | rfl | rfl
  · exact hversion m hm
  · exact hfields m hm
  · exact hstrings m hm

end Pervasive

/-! ### Validity -/

/-- The union of a level passes the check of unions: its options are the tags of the kinds, and its
variants are listed under the same tags. -/
theorem check_nodeUnion (levels : Nat) (name : String) :
    (nodeUnion levels name).check = .ok () := by
  rw [nodeUnion_eq, unionOver, Node.check_union_eq_ok_iff]
  refine ⟨⟨tags_ne_nil levels, nodup_tags levels⟩, by simp [Entries.keys, Function.comp_def], ?_⟩
  exact List.forall_mem_map.2 fun kind _ => nodup_names levels kind

/-- Every node of the meta-schema passes its check. -/
theorem pervasive_check : Pervasive fun m => m.check = .ok () where
  int name low high hle := (Node.valid_iff.1 (Node.valid_int_iff.2 hle)).1
  fixedBound name := (Node.valid_iff.1 (Node.valid_fixed_iff.2 (by decide +kernel))).1
  precision := (Node.valid_iff.1 (Node.valid_fixed_iff.2 (by decide +kernel))).1
  array name minLength maxLength item hle := checkLengths_eq_ok_iff.2 hle
  object name fields hnames := checkDistinctNames_eq_ok_iff.2 hnames
  union := check_nodeUnion

/-- **The meta-schema is a valid schema.**  So what holds of data against valid schemas holds of
descriptions. -/
theorem validate_fields (name : String) (depth : Nat) :
    Schema.validate ⟨name, fields depth⟩ = .ok () := by
  refine Schema.validate_eq_ok_iff.2 ⟨nodup_names_fields depth, ?_⟩
  intro field hfield m hm
  exact pervasive_check.of_mem_fields (Node.mem_walkList.2 ⟨field, hfield, hm⟩)

/-! ### Writing at a level -/

/-- **An object can be written at a level** when its kind is offered there and every field of the
kind can be written. -/
theorem writable_nodeUnion_iff {follow : Packing.WritePointer} {levels : Nat} {name : String}
    {kind : Kind} {rest : Entries Value} :
    Packing.Writable follow (nodeUnion levels name)
        (.object (("kind", .string kind.tag) :: rest)) ↔
      kind ∈ kinds levels ∧ ∀ field ∈ kindFields levels kind,
        Packing.Writable follow field (Entries.getOrNull rest field.name) := by
  have hchosen : Entries.getOrNull (("kind", .string kind.tag) :: rest) kindName =
      .string kind.tag := Entries.getOrNull_cons_self ..
  rw [nodeUnion_eq, unionOver, Packing.writable_union_iff hchosen,
    List.mem_map_of_injective Kind.tag_injective]
  refine and_congr_right fun hkind => ?_
  rw [get?_variants hkind, Option.getD_some]
  exact forall₂_congr fun field hfield => by rw [getOrNull_kindFields hfield]

/-- Described attributes in the order of the fields are written where they stand.  An entry is
looked up by the name of its field, and names are distinct, so the lookup finds the entry at the
place of the field. -/
theorem writable_nodeUnion_iff_forall₂ {follow : Packing.WritePointer} {levels : Nat}
    {name : String} {kind : Kind} {rest : Entries Value}
    (hkeys : Entries.keys rest = (kindFields levels kind).map Node.name) :
    Packing.Writable follow (nodeUnion levels name)
        (.object (("kind", .string kind.tag) :: rest)) ↔
      kind ∈ kinds levels ∧ List.Forall₂ (fun field entry => Packing.Writable follow field entry.2)
        (kindFields levels kind) rest := by
  rw [writable_nodeUnion_iff, Entries.forall_getOrNull_iff hkeys (nodup_names levels kind)]

end MetaSchema

end FieldGrammar
