import Mathlib
import FieldGrammar.Node.Defaults
import FieldGrammar.Proofs.ReadValues
import FieldGrammar.Proofs.Trees
import FieldGrammar.SchemaToken.Tagged

/-!
# The stored order of variants

The variants of a union may be stored in any order, and schemas that are imported come in the
order of their text.  Nothing that a schema is used for depends on it.

**Nodes in order.**  `Node.inOrder` puts the variants of every union, at every depth, in the order
of its options.  What is computed from a node is computed in the same way from the node in order,
valid or not, because every traversal asks for the variant of an option and for no other.  Where a
traversal returns nodes, as walks and pointers do, it returns them in order.

**Rearranged nodes.**  `Node.Rearranged` relates two nodes that differ in the order of variants
only.  The names of the variants of a valid union are distinct, so a rearranged union finds the
same fields for each option, and both nodes are the same in order.  Two schemas that are related
behave alike in everything that depends on the nodes in order alone.

## Main definitions

* `Node.inOrder` — the node with the variants of its unions in the order of their options
* `Node.Rearranged` — two nodes that differ in the order of variants

## Main statements

* `Node.inPlace_inOrder` — walks and targets are those of before, in order
* `Describe.node_inOrder`, `Packing.writeNode_inOrder`, `Packing.readNode_inOrder` — a node
* `Packing.followWrite_inOrder`, `Packing.followRead_inOrder` — pointers
* `Node.Rearranged.inOrder_eq` — rearranged nodes are the same in order
* `sameBehaviour_of_rearranged` — whole schemas
-/

namespace FieldGrammar

namespace Node

/-! ### Nodes in order -/

mutual

/-- The node with the variants of every union in the order of its options.  Variants without an
option are left out and missing ones are empty, so this is defined for every node, valid or not. -/
def inOrder : Node → Node
  | optional name inner => optional name inner.inOrder
  | array name minLength maxLength item => array name minLength maxLength item.inOrder
  | object name fields => object name (inOrderList fields)
  | union name discriminator variants =>
    union name discriminator
      (discriminator.options.map fun option => (option, inOrderAt variants option))
  | node => node

/-- The nodes of a list, each in order. -/
def inOrderList : List Node → List Node
  | [] => []
  | field :: rest => field.inOrder :: inOrderList rest

/-- The fields of a variant, each in order. -/
def inOrderAt : List (String × List Node) → String → List Node
  | [], _ => []
  | (key, fields) :: rest, option =>
    if key = option then inOrderList fields else inOrderAt rest option

end

theorem inOrderList_eq (fields : List Node) : inOrderList fields = fields.map inOrder := by
  induction fields with
  | nil => rfl
  | cons field rest ih => rw [inOrderList, ih, List.map_cons]

/-- Looking a variant up and putting it in order is putting it in order where it stands. -/
theorem inOrderAt_eq (variants : Entries (List Node)) (option : String) :
    inOrderAt variants option = ((Entries.get? variants option).getD []).map inOrder :=
  Entries.search_getD_eq (f := (inOrderAt · option)) rfl
    (fun _ _ _ => by rw [inOrderAt, inOrderList_eq]) variants

/-- The variants of a union in the order of its options, and their fields in order. -/
def orderedVariants (discriminator : Enumeration) (variants : Entries (List Node)) :
    Entries (List Node) :=
  discriminator.options.map fun option =>
    (option, ((Entries.get? variants option).getD []).map inOrder)

theorem inOrder_object (name : String) (fields : List Node) :
    (object name fields).inOrder = object name (fields.map inOrder) := by
  rw [inOrder, inOrderList_eq]

/-- A union in order has the variants of its options and no other. -/
theorem inOrder_union (name : String) (discriminator : Enumeration)
    (variants : Entries (List Node)) :
    (union name discriminator variants).inOrder =
      union name discriminator (orderedVariants discriminator variants) := by
  rw [inOrder]
  simp only [inOrderAt_eq, orderedVariants]

/-- An option finds the same fields as before, in order.  Everything below rests on this: a
traversal asks for the fields of an option and never for the variants as they are stored. -/
theorem getD_orderedVariants {discriminator : Enumeration} {variants : Entries (List Node)}
    {option : String} (h : option ∈ discriminator.options) :
    (Entries.get? (orderedVariants discriminator variants) option).getD [] =
      ((Entries.get? variants option).getD []).map inOrder := by
  rw [orderedVariants, Entries.get?_map_self _ h, Option.getD_some]

@[simp] theorem name_inOrder (node : Node) : node.inOrder.name = node.name := by
  cases node <;> rfl

/-! ### Traversals -/

/-- The children of a node in order are its children in order, also at a union, whose children
follow its options anyway. -/
theorem children_inOrder (node : Node) : node.inOrder.children = node.children.map inOrder := by
  cases node with
  | bool | int | fixed | enumeration | enumArray | pointer | optional | array => rfl
  | object name fields => rw [inOrder_object, children, children]
  | union name discriminator variants =>
      rw [inOrder_union]
      simp only [children, variantsInOrder, List.flatMap_map, List.map_flatMap]
      exact List.flatMap_congr fun option hoption => getD_orderedVariants hoption

/-- **Putting nodes in order changes them in place.**  Walks follow the options, so a node in order
has its walk in the same places. -/
theorem inPlace_inOrder : InPlace inOrder where
  name_eq := name_inOrder
  isPointer_eq node := by cases node <;> rfl
  pointer_eq _ _ := rfl
  children_eq := children_inOrder

@[simp] theorem depth_inOrder (node : Node) : node.inOrder.depth = node.depth := by
  have hlist : ∀ fields : List Node, (∀ field ∈ fields, field.inOrder.depth = field.depth) →
      depthList (fields.map inOrder) = depthList fields := by
    intro fields h
    rw [depthList_eq, depthList_eq, List.map_map]
    exact congrArg _ (List.map_congr_left h)
  -- Depth is computed through all children, so only the union is of interest.
  induction node with
  | bool | int | fixed | enumeration | enumArray | pointer => rfl
  | optional name inner ih => rw [inOrder, depth, depth, ih]
  | array name minLength maxLength item ih => rw [inOrder, depth, depth, ih]
  | object name fields ih => rw [inOrder_object, depth, depth, hlist fields ih]
  | union name discriminator variants ih =>
      rw [inOrder_union, depth, depth]
      have hvariants : (discriminator.options.map fun option =>
          depthAt (orderedVariants discriminator variants) option) =
            discriminator.options.map fun option => depthAt variants option := by
        refine List.map_congr_left fun option hoption => ?_
        rw [depthAt_eq, depthAt_eq, getD_orderedVariants hoption]
        exact hlist _ (Entries.forall_mem_getD ih option)
      rw [hvariants]

/-! ### Defaults -/

theorem defaultPairs_inOrder {fields : List Node}
    (h : ∀ field ∈ fields, field.inOrder.default = field.default) :
    defaultPairs (fields.map inOrder) = defaultPairs fields := by
  rw [defaultPairs_eq, defaultPairs_eq, List.map_map]
  refine List.map_congr_left fun field hfield => ?_
  rw [Function.comp_apply, name_inOrder, h field hfield]

/-- A node in order has the default of the node: that of a union is an object with the first option
and the defaults of the fields for it. -/
@[simp] theorem default_inOrder (node : Node) : node.inOrder.default = node.default := by
  induction node with
  | bool | int | fixed | enumeration | enumArray | pointer | optional | array => rfl
  | object name fields ih => rw [inOrder_object, default, default, defaultPairs_inOrder ih]
  | union name discriminator variants ih =>
      rw [inOrder_union, default, default]
      split
      · rfl
      · next option rest hoptions =>
        have hoption : option ∈ discriminator.options := hoptions ▸ List.mem_cons_self
        rw [defaultPairsAt_eq, defaultPairsAt_eq, getD_orderedVariants hoption,
          defaultPairs_inOrder (Entries.forall_mem_getD ih option)]

end Node

/-! ### Schemas -/

section

variable (fields : List Node)

theorem map_depth_inOrder :
    (fields.map Node.inOrder).map Node.depth = fields.map Node.depth := by
  simp only [List.map_map, Function.comp_def, Node.depth_inOrder]

theorem schemaDepth_inOrder (name : String) :
    Schema.depth ⟨name, fields.map Node.inOrder⟩ = Schema.depth ⟨name, fields⟩ := by
  rw [Schema.depth, Schema.depth, Node.depthList_eq, Node.depthList_eq, map_depth_inOrder]

theorem defaultObject_inOrder : defaultObject (fields.map Node.inOrder) = defaultObject fields := by
  rw [defaultObject, defaultObject, Node.defaultPairs_inOrder fun field _ =>
    Node.default_inOrder field]

/-- The same field is the first one that is too deep, and the error is the same, with its name and
its depth. -/
theorem checkDepths_inOrder (maxDepth : Nat) :
    checkDepths maxDepth (fields.map Node.inOrder) = checkDepths maxDepth fields := by
  induction fields with
  | nil => rfl
  | cons field rest ih =>
      rw [List.map_cons, checkDepths, checkDepths, ih, Node.depth_inOrder, Node.name_inOrder]

end

/-! ### Descriptions -/

namespace Describe

/-- Looking a variant up and describing it is describing it where it stands. -/
theorem variant_eq (variants : Entries (List Node)) (option : String) :
    variant variants option = (do
      return .array (← nodes ((Entries.get? variants option).getD []))) :=
  Entries.search_getD_eq (f := (variant · option))
    (g := fun fields => return .array (← nodes fields)) (by rw [variant, nodes, pure_bind])
    (fun _ _ _ => by rw [variant]) variants

/-- A list of nodes is described alike if each of the nodes is. -/
theorem nodes_inOrder {fields : List Node}
    (h : ∀ field ∈ fields, node field.inOrder = node field) :
    nodes (fields.map Node.inOrder) = nodes fields := by
  induction fields with
  | nil => rfl
  | cons field rest ih =>
      obtain ⟨hfield, hrest⟩ := List.forall_mem_cons.1 h
      rw [List.map_cons, nodes, nodes, hfield, ih hrest]

/-- **A node in order is described alike.**  Strings are requested in the order of the walk, so the
table that the description leaves is the same as well. -/
theorem node_inOrder (n : Node) : node n.inOrder = node n := by
  induction n with
  | bool | int | fixed | enumeration | enumArray | pointer => rfl
  | optional name inner ih => rw [Node.inOrder, node, node, ih]
  | array name minLength maxLength item ih => rw [Node.inOrder, node, node, ih]
  | object name fields ih => rw [Node.inOrder_object, node, node, nodes_inOrder ih]
  | union name discriminator variants ih =>
      have hvariants : (discriminator.options.mapM fun option =>
          variant (Node.orderedVariants discriminator variants) option) =
            discriminator.options.mapM fun option => variant variants option := by
        refine mapM_congr fun option hoption => ?_
        rw [variant_eq, variant_eq, Node.getD_orderedVariants hoption,
          nodes_inOrder (Entries.forall_mem_getD ih option)]
      rw [Node.inOrder_union, node, node, hvariants]

/-- A schema in order has the same description and the same table. -/
theorem schema_inOrder (name : String) (fields : List Node) :
    schema name (fields.map Node.inOrder) = schema name fields := by
  rw [schema, schema, nodes_inOrder fun field _ => node_inOrder field]

end Describe

/-! ### Data -/

namespace Packing

section

variable {follow : WritePointer}

/-- Fields are written alike if each of them is. -/
theorem writeFields_inOrder {fields : List Node}
    (h : ∀ field ∈ fields, writeNode follow field.inOrder = writeNode follow field) :
    writeFields follow (fields.map Node.inOrder) = writeFields follow fields := by
  funext entries
  induction fields with
  | nil => rfl
  | cons field rest ih =>
      obtain ⟨hfield, hrest⟩ := List.forall_mem_cons.1 h
      rw [List.map_cons, writeFields, writeFields, hfield, ih hrest, Node.name_inOrder]

/-- **A value is written alike against a node in order.**  The equation is one of functions, so it
covers every value, those that are refused included. -/
theorem writeNode_inOrder (node : Node) :
    writeNode follow node.inOrder = writeNode follow node := by
  induction node with
  | bool | int | fixed | enumeration | enumArray | pointer => rfl
  | optional name inner ih =>
      funext value
      rw [Node.inOrder, writeNode, writeNode, ih]
  | array name minLength maxLength item ih =>
      funext value
      rw [Node.inOrder, writeNode, writeNode, ih]
  | object name fields ih =>
      funext value
      rw [Node.inOrder_object, writeNode, writeNode, writeFields_inOrder ih]
  | union name discriminator variants ih =>
      funext value
      rw [Node.inOrder_union, writeNode, writeNode]
      split
      · rfl
      · next entries _ =>
        cases hoption :
            writeOption discriminator (Entries.getOrNull entries discriminator.name) with
        | error e => rfl
        | ok found =>
            rw [ok_bind, ok_bind]
            dsimp only
            rw [writeVariant_eq, writeVariant_eq,
              Node.getD_orderedVariants (mem_of_writeOption hoption),
              writeFields_inOrder (Entries.forall_mem_getD ih found.1)]

end

section

variable {follow : ReadPointer}

/-- Fields are read alike if each of them is. -/
theorem readFields_inOrder {fields : List Node}
    (h : ∀ field ∈ fields, readNode follow field.inOrder = readNode follow field) :
    readFields follow (fields.map Node.inOrder) = readFields follow fields := by
  funext r
  induction fields generalizing r with
  | nil => rfl
  | cons field rest ih =>
      obtain ⟨hfield, hrest⟩ := List.forall_mem_cons.1 h
      rw [List.map_cons, readFields, readFields, hfield, Node.name_inOrder]
      simp only [ih hrest]

/-- **A value is read alike against a node in order.** -/
theorem readNode_inOrder (node : Node) : readNode follow node.inOrder = readNode follow node := by
  induction node with
  | bool | int | fixed | enumeration | enumArray | pointer => rfl
  | optional name inner ih =>
      funext r
      rw [Node.inOrder, readNode, readNode, ih]
  | array name minLength maxLength item ih =>
      funext r
      rw [Node.inOrder, readNode, readNode, ih]
  | object name fields ih =>
      funext r
      rw [Node.inOrder_object, readNode, readNode, readFields_inOrder ih]
  | union name discriminator variants ih =>
      funext r
      rw [Node.inOrder_union, readNode, readNode]
      cases hoption : readOption discriminator r with
      | error e => rfl
      | ok found =>
          rw [ok_bind, ok_bind]
          dsimp only
          rw [readVariant_eq, readVariant_eq,
            Node.getD_orderedVariants (mem_of_readOption hoption),
            readFields_inOrder (Entries.forall_mem_getD ih found.1)]

end

section

variable (scope : List Node) (limit budget : Nat)

/-- Pointers are written alike, however many are still to be followed. -/
theorem followWrite_inOrder :
    followWrite (scope.map Node.inOrder) limit budget = followWrite scope limit budget := by
  induction budget with
  | zero =>
      funext name target value
      rw [followWrite, followWrite, Node.inPlace_inOrder.resolveTarget_map]
      cases resolveTarget scope target <;> rfl
  | succ budget ih =>
      funext name target value
      rw [followWrite, followWrite, Node.inPlace_inOrder.resolveTarget_map, ih]
      cases resolveTarget scope target with
      | none => rfl
      | some node => exact congrFun (writeNode_inOrder node) value

/-- Pointers are read alike, however many are still to be followed. -/
theorem followRead_inOrder :
    followRead (scope.map Node.inOrder) limit budget = followRead scope limit budget := by
  induction budget with
  | zero =>
      funext name target r
      rw [followRead, followRead, Node.inPlace_inOrder.resolveTarget_map]
      cases resolveTarget scope target <;> rfl
  | succ budget ih =>
      funext name target r
      rw [followRead, followRead, Node.inPlace_inOrder.resolveTarget_map, ih]
      cases resolveTarget scope target with
      | none => rfl
      | some node => exact congrFun (readNode_inOrder node) r

end

end Packing

section

variable (fields : List Node) (options : CodecOptions)

theorem packData_inOrder (data : Value) :
    packData (fields.map Node.inOrder) data options = packData fields data options := by
  simp only [packData, Packing.writeData, Packing.followWrite_inOrder,
    Packing.writeFields_inOrder fun field _ => Packing.writeNode_inOrder field]

theorem unpackData_inOrder (bytes : List UInt8) :
    unpackData (fields.map Node.inOrder) bytes options = unpackData fields bytes options := by
  simp only [unpackData, Packing.readData, Packing.followRead_inOrder,
    Packing.readFields_inOrder fun field _ => Packing.readNode_inOrder field]

end

/-! ### Rearranged nodes -/

namespace Node

mutual

/-- The second node is the first one, but for the order in which unions store their variants. -/
inductive Rearranged : Node → Node → Prop
  | refl (node : Node) : Rearranged node node
  | optional (name : String) {inner inner' : Node} (h : Rearranged inner inner') :
      Rearranged (.optional name inner) (.optional name inner')
  | array (name : String) (minLength maxLength : UInt32) {item item' : Node}
      (h : Rearranged item item') :
      Rearranged (.array name minLength maxLength item) (.array name minLength maxLength item')
  | object (name : String) {fields fields' : List Node}
      (h : List.Forall₂ Rearranged fields fields') :
      Rearranged (.object name fields) (.object name fields')
  | union (name : String) (discriminator : Enumeration)
      {variants stored variants' : List (String × List Node)}
      (h : List.Forall₂ RearrangedVariant variants stored) (hperm : stored.Perm variants') :
      Rearranged (.union name discriminator variants) (.union name discriminator variants')

/-- The same variant, but for the order in which unions in it store theirs. -/
inductive RearrangedVariant : String × List Node → String × List Node → Prop
  | fields (key : String) {fields fields' : List Node}
      (h : List.Forall₂ Rearranged fields fields') :
      RearrangedVariant (key, fields) (key, fields')

end

/-- Variants that are related one by one have the same names in the same order. -/
theorem keys_rearranged {variants stored : Entries (List Node)}
    (h : List.Forall₂ RearrangedVariant variants stored) :
    Entries.keys stored = Entries.keys variants := by
  induction h with
  | nil => rfl
  | cons hentry _ ih =>
      cases hentry with
      | fields key _ => rw [Entries.keys_cons, Entries.keys_cons, ih]

/-- Each option finds fields that are rearranged one by one.  This is where distinct names are used:
in a permutation of variants a name finds the same one. -/
theorem forall₂_getD_rearranged {variants stored : Entries (List Node)}
    (h : List.Forall₂ RearrangedVariant variants stored) (option : String) :
    List.Forall₂ Rearranged ((Entries.get? variants option).getD [])
      ((Entries.get? stored option).getD []) := by
  induction h with
  | nil => exact .nil
  | cons hentry _ ih =>
      cases hentry with
      | fields key hfields =>
          rw [Entries.get?_cons, Entries.get?_cons]
          split
          · exact hfields
          · exact ih

/-- Lists that are rearranged one by one are the same in order if rearranged members are. -/
theorem map_inOrder_of_forall₂ {fields fields' : List Node}
    (h : List.Forall₂ Rearranged fields fields')
    (hfields : ∀ field ∈ fields, ∀ node, Rearranged field node → field.inOrder = node.inOrder) :
    fields.map inOrder = fields'.map inOrder := by
  induction h with
  | nil => rfl
  | cons hfield _ ih =>
      obtain ⟨hhead, hrest⟩ := List.forall_mem_cons.1 hfields
      rw [List.map_cons, List.map_cons, hhead _ hfield, ih hrest]

/-- **A valid node and its rearrangement are the same in order.**  This is the one use of validity:
two schemas are compared through what they have in common. -/
theorem Rearranged.inOrder_eq {node node' : Node} (h : Rearranged node node')
    (hvalid : node.Valid) : node.inOrder = node'.inOrder := by
  induction node generalizing node' with
  | bool | int | fixed | enumeration | enumArray | pointer =>
      cases h
      rfl
  | optional name inner ih =>
      cases h with
      | refl => rfl
      | optional _ h => rw [inOrder, inOrder, ih h (valid_optional_iff.1 hvalid)]
  | array name minLength maxLength item ih =>
      cases h with
      | refl => rfl
      | array _ _ _ h => rw [inOrder, inOrder, ih h (valid_array_iff.1 hvalid).2]
  | object name fields ih =>
      cases h with
      | refl => rfl
      | object _ h =>
          obtain ⟨-, hfields⟩ := valid_object_iff.1 hvalid
          have hmap := map_inOrder_of_forall₂ h fun field hfield node hnode =>
            ih field hfield hnode (hfields field hfield)
          rw [inOrder_object, inOrder_object, hmap]
  | union name discriminator variants ih =>
      cases h with
      | refl => rfl
      | @union _ _ _ stored variants' h hperm =>
          obtain ⟨⟨-, hoptions⟩, hkeys, hvariants⟩ := valid_union_iff.1 hvalid
          -- Names of variants are distinct, so looking one up does not depend on the order.
          have hstored : (Entries.keys stored).Nodup := by
            rw [keys_rearranged h, hkeys.nodup_iff]
            exact hoptions
          have hfields : orderedVariants discriminator variants =
              orderedVariants discriminator variants' := by
            refine List.map_congr_left fun option _ => ?_
            rw [← Entries.get?_of_perm hstored hperm,
              map_inOrder_of_forall₂ (forall₂_getD_rearranged h option)]
            exact Entries.forall_mem_getD (fun entry hentry field hfield node hnode =>
              ih entry hentry field hfield hnode ((hvariants entry hentry).2 field hfield)) option
          rw [inOrder_union, inOrder_union, hfields]

end Node

/-! ### Whole schemas -/

/-- The token of a valid schema. -/
theorem encodePacked_of_valid {name : String} {fields : List Node}
    (h : Schema.validate ⟨name, fields⟩ = .ok ()) (options : CodecOptions) :
    encodePacked name fields options = (do
      let layout ← MetaSchema.ofDepth options.maxDepth
      checkDepths options.maxDepth fields
      let (data, _) ← Describe.schema name fields
      encodeData layout data options) := by
  rw [encodePacked, h, ok_bind]

/-- **The stored order of variants is irrelevant.**  Two valid schemas that differ only in the order
in which their unions store variants, at any depth, have the same token or are refused with the same
error, and they have the same string table, defaults and depths; resolving their pointers has the
same result, and so have packing any data and unpacking any octets.  Each of these depends on the
nodes in order alone, and in order the two schemas are one. -/
theorem sameBehaviour_of_rearranged {name : String} {fields fields' : List Node}
    (hvalid : Schema.validate ⟨name, fields⟩ = .ok ())
    (hvalid' : Schema.validate ⟨name, fields'⟩ = .ok ())
    (h : List.Forall₂ Node.Rearranged fields fields') :
    (∀ options, encodePacked name fields options = encodePacked name fields' options) ∧
    stringTableOf name fields = stringTableOf name fields' ∧
    defaultObject fields = defaultObject fields' ∧
    (fields.map Node.depth = fields'.map Node.depth ∧
      Schema.depth ⟨name, fields⟩ = Schema.depth ⟨name, fields'⟩) ∧
    Schema.resolvePointers ⟨name, fields⟩ = Schema.resolvePointers ⟨name, fields'⟩ ∧
    ∀ options, (∀ data, packData fields data options = packData fields' data options) ∧
      ∀ bytes, unpackData fields bytes options = unpackData fields' bytes options := by
  obtain ⟨-, hfields⟩ := Schema.validate_eq_ok_iff.1 hvalid
  have heq : fields.map Node.inOrder = fields'.map Node.inOrder :=
    Node.map_inOrder_of_forall₂ h fun field hfield node hnode =>
      hnode.inOrder_eq (hfields field hfield)
  refine ⟨fun options => ?_, ?_, ?_, ⟨?_, ?_⟩, ?_, fun options => ⟨fun data => ?_, fun bytes => ?_⟩⟩
  · rw [encodePacked_of_valid hvalid, encodePacked_of_valid hvalid',
      ← checkDepths_inOrder fields, ← Describe.schema_inOrder name fields, heq,
      checkDepths_inOrder fields', Describe.schema_inOrder name fields']
  · rw [stringTableOf, stringTableOf, ← Describe.schema_inOrder name fields, heq,
      Describe.schema_inOrder name fields']
  · rw [← defaultObject_inOrder fields, heq, defaultObject_inOrder fields']
  · rw [← map_depth_inOrder fields, heq, map_depth_inOrder fields']
  · rw [← schemaDepth_inOrder fields, heq, schemaDepth_inOrder fields']
  · rw [← Node.inPlace_inOrder.resolvePointers_map name fields, heq,
      Node.inPlace_inOrder.resolvePointers_map name fields']
  · rw [← packData_inOrder fields, heq, packData_inOrder fields']
  · rw [← unpackData_inOrder fields, heq, unpackData_inOrder fields']

/-- A route that may go on, with a toll that one of two parties pays.  One union stands inside
another, so that there are two depths to rearrange. -/
def tollRoute : List Node :=
  [.union "route" ⟨"kind", ["road", "sea"]⟩
    [("road", [.union "toll" ⟨"payer", ["driver", "owner"]⟩
      [("driver", [.bool "cash"]), ("owner", [.int "account" 0 99])]]),
    ("sea", [.optional "next" (.pointer "next" "route")])]]

/-- The same route with the variants of both unions stored the other way round. -/
def tollRouteReversed : List Node :=
  [.union "route" ⟨"kind", ["road", "sea"]⟩
    [("sea", [.optional "next" (.pointer "next" "route")]),
    ("road", [.union "toll" ⟨"payer", ["driver", "owner"]⟩
      [("owner", [.int "account" 0 99]), ("driver", [.bool "cash"])]])]]

/-- Over the sea and then along a road whose toll the owner pays. -/
def seaThenRoad : Value :=
  .object [("route", .object [("kind", .string "sea"),
    ("next", .object [("kind", .string "road"),
      ("toll", .object [("payer", .string "owner"), ("account", .int 7)])])])]

/-- The two routes differ in the order of variants only, at two depths. -/
theorem rearranged_tollRoute : List.Forall₂ Node.Rearranged tollRoute tollRouteReversed := by
  have htoll : Node.Rearranged
      (.union "toll" ⟨"payer", ["driver", "owner"]⟩
        [("driver", [.bool "cash"]), ("owner", [.int "account" 0 99])])
      (.union "toll" ⟨"payer", ["driver", "owner"]⟩
        [("owner", [.int "account" 0 99]), ("driver", [.bool "cash"])]) :=
    .union _ _ (.cons (.fields _ (.cons (.refl _) .nil))
      (.cons (.fields _ (.cons (.refl _) .nil)) .nil)) (.swap ..)
  exact .cons (.union _ _ (.cons (.fields _ (.cons htoll .nil))
    (.cons (.fields _ (.cons (.refl _) .nil)) .nil)) (.swap ..)) .nil

/-- The two routes pack the same journey into the same octets and have the same token. -/
theorem sameBehaviour_of_rearranged_tollRoute :
    Schema.validate ⟨"trip", tollRoute⟩ = .ok () ∧
    Schema.validate ⟨"trip", tollRouteReversed⟩ = .ok () ∧
    List.Forall₂ Node.Rearranged tollRoute tollRouteReversed ∧
    packData tollRoute seaThenRoad {} = .ok [208, 224] ∧
    packData tollRouteReversed seaThenRoad {} = .ok [208, 224] ∧
    encodePacked "trip" tollRoute {} = encodePacked "trip" tollRouteReversed {} := by
  have hvalid : Schema.validate ⟨"trip", tollRoute⟩ = .ok () := rfl
  have hvalid' : Schema.validate ⟨"trip", tollRouteReversed⟩ = .ok () := rfl
  obtain ⟨hencode, -, -, -, -, hdata⟩ :=
    sameBehaviour_of_rearranged hvalid hvalid' rearranged_tollRoute
  have hpack : packData tollRoute seaThenRoad {} = .ok [208, 224] :=
    eq_ok_of_toOption (by decide +kernel)
  exact ⟨hvalid, hvalid', rearranged_tollRoute, hpack, ((hdata {}).1 seaThenRoad) ▸ hpack,
    hencode {}⟩

end FieldGrammar
