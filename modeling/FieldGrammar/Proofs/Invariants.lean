import Mathlib
import FieldGrammar.Proofs.GivenVariants
import FieldGrammar.Proofs.NumberOrder
import FieldGrammar.Proofs.VariantOrder

/-!
# Invariants of whole trees

Every kind of node has an invariant on its attributes.  Validation establishes it everywhere in a
tree, although it does not look everywhere: it visits the variants that the options of a union
name, and a variant that no option names is passed over.  The invariant of the union itself closes
the gap.  The stored variants are exactly those of the options, so the nodes that are visited are
all that there are.

The building functions test the attributes of the node that they make and never look below it.  A
tree that is put together by them alone is valid because its parts are.  It also stores the
variants of its unions in the order of the options, and these two properties are all that sets such
trees apart.

## Main definitions

* `Node.Occurs` — a node is somewhere in a tree, visited or not
* `Node.Consistent` — the invariant of the kind of a node
* `Node.Built` — trees that are put together by the building functions

## Main statements

* `Node.check_eq_ok_iff` — a check tests the invariant
* `Node.valid_iff_forall_occurs` — validation is complete
* `Node.Valid.occurs_iff_mem_walk` — nothing in a valid tree is passed over
* `Node.Built.valid`, `Node.built_iff` — building is closed under validity
* `validate_complete_and_built_valid` — schemas and built nodes
-/

namespace FieldGrammar

namespace Node

/-! ### The invariants of the kinds -/

/-- The invariant of the kind of a node, which says nothing of the nodes below it.  It is stated in
terms of the attributes, so that it can be read without the checks. -/
def Consistent : Node → Prop
  | int _ min max => min ≤ max
  | fixed _ min max precision =>
    (min.isFinite = true ∧ max.isFinite = true ∧ precision.isFinite = true) ∧
      min ≤ max ∧ 0.0 < precision
  | enumeration e => e.options ≠ [] ∧ e.options.Nodup
  | array _ minLength maxLength _ => minLength ≤ maxLength
  | enumArray _ minLength maxLength e =>
    minLength ≤ maxLength ∧ e.options ≠ [] ∧ e.options.Nodup
  | object _ fields => (fields.map name).Nodup
  | union _ discriminator variants =>
    (discriminator.options ≠ [] ∧ discriminator.options.Nodup) ∧
      (Entries.keys variants).Perm discriminator.options ∧
        ∀ variant ∈ variants, (variant.2.map name).Nodup
  | bool _ | optional .. | pointer .. => True

private theorem isFinite_zero : (0.0 : Float).isFinite = true := by decide +kernel

/-- What is tested of a number in steps is the order of its bounds, since these are finite. -/
theorem consistent_fixed_iff {name : String} {min max precision : Float} :
    (fixed name min max precision).Consistent ↔
      (min.isFinite = true ∧ max.isFinite = true ∧ precision.isFinite = true) ∧
        ¬max < min ∧ ¬precision ≤ 0.0 := by
  refine and_congr_right fun ⟨hmin, hmax, hprecision⟩ => ?_
  rw [Binary64.not_lt_iff hmin hmax, Binary64.not_le_iff isFinite_zero hprecision]

/-- **A check tests the invariant of the kind**, all of it and nothing else. -/
theorem check_eq_ok_iff {node : Node} : node.check = .ok () ↔ node.Consistent := by
  cases node with
  | bool | optional | pointer => exact ⟨fun _ => trivial, fun _ => rfl⟩
  | int => exact (forall_mem_walk_leaf_iff rfl).symm.trans valid_int_iff
  | fixed =>
      rw [consistent_fixed_iff]
      exact (forall_mem_walk_leaf_iff rfl).symm.trans valid_fixed_iff
  | enumeration e => exact Enumeration.validate_eq_ok_iff
  | array => exact checkLengths_eq_ok_iff
  | enumArray => exact (forall_mem_walk_leaf_iff rfl).symm.trans valid_enumArray_iff
  | object => exact checkDistinctNames_eq_ok_iff
  | union => exact check_union_eq_ok_iff

/-! ### Validation is complete -/

/-- A node is somewhere in a tree, its root included, and whether or not a traversal visits it.  A
variant that no option names is stored and not visited. -/
inductive Occurs (m : Node) : Node → Prop
  | here : Occurs m m
  | inside {node child : Node} (hchild : child ∈ node.contents) (h : Occurs m child) :
    Occurs m node

/-- Validity, level by level, with everything that is stored. -/
theorem valid_iff_contents {node : Node} :
    node.Valid ↔ node.Consistent ∧ ∀ child ∈ node.contents, child.Valid := by
  cases node with
  | union name discriminator variants =>
      rw [valid_union_iff, contents]
      simp only [Consistent, List.forall_mem_flatMap, and_assoc, forall_and]
  | bool | int | fixed | enumeration | optional | array | enumArray | object | pointer =>
      rw [valid_iff, check_eq_ok_iff]
      rfl

/-- **A node is valid exactly when every node of its tree satisfies its invariant.**  A variant that
is not visited is ruled out by the invariant of its union, so visiting is enough. -/
theorem valid_iff_forall_occurs {node : Node} :
    node.Valid ↔ ∀ m, Occurs m node → m.Consistent := by
  constructor
  · intro hvalid m hm
    induction hm with
    | here => exact (valid_iff_contents.1 hvalid).1
    | inside hchild _ ih => exact ih ((valid_iff_contents.1 hvalid).2 _ hchild)
  · intro h
    induction node using induction_contents with
    | step node ih =>
        exact valid_iff_contents.2 ⟨h node .here, fun child hchild =>
          ih child hchild fun m hm => h m (.inside hchild hm)⟩

/-- A valid node has no contents but those that are visited. -/
theorem Valid.contents_subset_children {node : Node} (h : node.Valid) :
    node.contents ⊆ node.children := by
  cases node with
  | union name discriminator variants =>
      intro child hchild
      obtain ⟨variant, hvariant, hmem⟩ := List.mem_flatMap.1 hchild
      exact forall_variants_of_children h (fun _ => id) variant hvariant child hmem
  | bool | int | fixed | enumeration | optional | array | enumArray | object | pointer =>
      exact fun _ => id

/-- **What occurs in a valid tree is what its walk visits.**  The names of variants are the options,
so each of the stored variants is visited. -/
theorem Valid.occurs_iff_mem_walk {m node : Node} (hvalid : node.Valid) :
    Occurs m node ↔ m ∈ node.walk := by
  constructor
  · intro h
    induction h with
    | here => exact mem_walk_self m
    | inside hchild _ ih =>
        exact mem_walk.2 (.inr ⟨_, hvalid.contents_subset_children hchild,
          ih ((valid_iff_contents.1 hvalid).2 _ hchild)⟩)
  · intro h
    induction node using induction_children with
    | step node ih =>
        rcases mem_walk.1 h with rfl | ⟨child, hchild, hm⟩
        · exact .here
        · exact .inside (children_subset_contents node hchild)
            (ih child hchild ((valid_iff.1 hvalid).2 child hchild) hm)

/-! ### Building from the leaves up -/

/-- A tree that is put together from the leaves up by the building functions alone.  The
constructors of nodes build more than that. -/
inductive Built : Node → Prop
  | bool (name : String) : Built (Build.bool name)
  | int {name : String} {min max : Int64} {node : Node}
    (h : Build.int name min max = .ok node) : Built node
  | fixed {name : String} {min max precision : Float} {node : Node}
    (h : Build.fixed name min max precision = .ok node) : Built node
  | enumeration {name : String} {options : List String} {node : Node}
    (h : Build.enumeration name options = .ok node) : Built node
  | optional {name : String} {inner : Node} (hinner : Built inner) :
    Built (Build.optional name inner)
  | array {name : String} {minLength maxLength : UInt32} {item node : Node} (hitem : Built item)
    (h : Build.array name minLength maxLength item = .ok node) : Built node
  | enumArray {name : String} {minLength maxLength : UInt32} {e : Enumeration} {node : Node}
    (h : Build.enumArray name minLength maxLength e = .ok node) : Built node
  | object {name : String} {fields : List Node} {node : Node}
    (hfields : ∀ field ∈ fields, Built field) (h : Build.object name fields = .ok node) :
    Built node
  | union {name : String} {discriminator : Enumeration} {pairs : List (String × List Node)}
    {node : Node} (hfields : ∀ pair ∈ pairs, ∀ field ∈ pair.2, Built field)
    (h : Build.union name discriminator pairs = .ok node) : Built node
  | pointer (name target : String) : Built (Build.pointer name target)

theorem enumeration_eq_ok_iff {name : String} {options : List String} {node : Node} :
    Build.enumeration name options = .ok node ↔
      (options ≠ [] ∧ options.Nodup) ∧ node = .enumeration ⟨name, options⟩ := by
  rw [Build.enumeration, Enumeration.make, bind_assoc, unit_bind_eq_ok_iff,
    Enumeration.validate_eq_ok_iff, pure_bind, pure_eq_ok, Except.ok.injEq, eq_comm (b := node)]

/-- A checked node is valid if its contents are. -/
theorem valid_of_checked {node node' : Node} (h : node.checked = .ok node')
    (hcontents : ∀ child ∈ node.contents, child.Valid) : node'.Valid := by
  obtain ⟨hcheck, rfl⟩ := checked_eq_ok_iff.1 h
  exact valid_iff_contents.2 ⟨check_eq_ok_iff.1 hcheck, hcontents⟩

/-- **What is built is valid.**  Each building function checks the node that it returns, and its
parts have been checked when they were built. -/
theorem Built.valid {node : Node} (h : Built node) : node.Valid := by
  induction h with
  | bool | pointer => exact valid_iff_contents.2 ⟨trivial, List.forall_mem_nil _⟩
  | int h | fixed h | enumArray h => exact valid_of_checked h (List.forall_mem_nil _)
  | enumeration h =>
      obtain ⟨hoptions, rfl⟩ := enumeration_eq_ok_iff.1 h
      exact valid_enumeration_iff.2 hoptions
  | optional _ ih => exact valid_optional_iff.2 ih
  | array _ h ih => exact valid_of_checked h (List.forall_mem_singleton.2 ih)
  | object _ h ih => exact valid_of_checked h ih
  | @union name _ _ _ _ h ih =>
      obtain ⟨hvalid, hkeys, hnames, rfl⟩ := Build.union_eq_ok_iff.1 h
      have hcheck := (Build.check_unionOfLast_eq_ok_iff name hkeys hvalid).2 hnames
      refine valid_iff_contents.2 ⟨check_eq_ok_iff.1 hcheck, fun child hchild => ?_⟩
      obtain ⟨pair, hpair, hmem⟩ := Build.exists_pair_of_mem_unionOfLast hchild
      exact ih pair hpair child hmem

theorem map_inOrder_eq_self_iff {fields : List Node} :
    fields.map inOrder = fields ↔ ∀ field ∈ fields, field.inOrder = field := by
  have hself := @List.map_inj_left _ _ fields inOrder id
  rwa [List.map_id] at hself

/-- What is built stores its variants in order, because unions are filled option by option. -/
theorem Built.inOrder_eq {node : Node} (h : Built node) : node.inOrder = node := by
  induction h with
  | bool | pointer => rfl
  | int h | fixed h | enumArray h =>
      obtain ⟨-, rfl⟩ := checked_eq_ok_iff.1 h
      rfl
  | enumeration h =>
      obtain ⟨-, rfl⟩ := enumeration_eq_ok_iff.1 h
      rfl
  | optional _ ih => rw [Build.optional, inOrder, ih]
  | array _ h ih =>
      obtain ⟨-, rfl⟩ := checked_eq_ok_iff.1 h
      rw [inOrder, ih]
  | object _ h ih =>
      obtain ⟨-, rfl⟩ := checked_eq_ok_iff.1 h
      rw [inOrder_object, map_inOrder_eq_self_iff.2 ih]
  | union _ h ih =>
      obtain ⟨-, -, -, rfl⟩ := Build.union_eq_ok_iff.1 h
      rw [Build.unionOfLast, inOrder_union, orderedVariants, Entries.map_getD_map_self]
      refine congrArg _ (List.map_congr_left fun option _ => congrArg _ ?_)
      refine map_inOrder_eq_self_iff.2 fun field hfield => ?_
      obtain ⟨pair, hpair, hmem⟩ := Entries.exists_mem_of_mem_last? hfield
      exact ih pair hpair field hmem

/-- If putting distinct variants in order changes nothing, their fields are in order. -/
theorem inOrder_eq_of_orderedVariants_eq {discriminator : Enumeration}
    {variants : Entries (List Node)} (hkeys : (Entries.keys variants).Nodup)
    (h : orderedVariants discriminator variants = variants) :
    ∀ entry ∈ variants, ∀ field ∈ entry.2, field.inOrder = field := by
  intro entry hentry
  have hget : Entries.get? variants entry.1 = some entry.2 :=
    (Entries.get?_eq_some_iff hkeys).2 hentry
  have hordered := hentry
  rw [← h] at hordered
  obtain ⟨option, -, heq⟩ := List.mem_map.1 hordered
  obtain ⟨rfl, hfields⟩ := Prod.ext_iff.1 heq
  rw [hget, Option.getD_some] at hfields
  exact map_inOrder_eq_self_iff.1 hfields

/-- A valid node with its variants in order can be built from its contents. -/
theorem Built.of_valid {node : Node} (hvalid : node.Valid) (horder : node.inOrder = node) :
    Built node := by
  induction node with
  | bool name => exact .bool name
  | pointer name target => exact .pointer name target
  | int => exact .int (checked_eq_ok_iff.2 ⟨(valid_iff.1 hvalid).1, rfl⟩)
  | fixed => exact .fixed (checked_eq_ok_iff.2 ⟨(valid_iff.1 hvalid).1, rfl⟩)
  | enumeration e =>
      exact .enumeration (enumeration_eq_ok_iff.2 ⟨valid_enumeration_iff.1 hvalid, rfl⟩)
  | enumArray => exact .enumArray (checked_eq_ok_iff.2 ⟨(valid_iff.1 hvalid).1, rfl⟩)
  | optional name inner ih =>
      obtain ⟨-, hinner⟩ := optional.inj horder
      exact .optional (ih (valid_optional_iff.1 hvalid) hinner)
  | array name minLength maxLength item ih =>
      obtain ⟨-, -, -, hitem⟩ := array.inj horder
      exact .array (ih (valid_array_iff.1 hvalid).2 hitem)
        (checked_eq_ok_iff.2 ⟨(valid_iff.1 hvalid).1, rfl⟩)
  | object name fields ih =>
      rw [inOrder_object] at horder
      have hfields := map_inOrder_eq_self_iff.1 (object.inj horder).2
      exact .object (fun field hfield =>
          ih field hfield ((valid_object_iff.1 hvalid).2 field hfield) (hfields field hfield))
        (checked_eq_ok_iff.2 ⟨(valid_iff.1 hvalid).1, rfl⟩)
  | union name discriminator variants ih =>
      obtain ⟨hoptions, hperm, hentries⟩ := valid_union_iff.1 hvalid
      have hkeys : (Entries.keys variants).Nodup := hperm.nodup_iff.2 hoptions.2
      rw [inOrder_union] at horder
      obtain ⟨-, -, hordered⟩ := union.inj horder
      have hfields := inOrder_eq_of_orderedVariants_eq hkeys hordered
      -- The variants are given as they are stored, and no name is given twice.
      have hlast : ∀ key, Entries.last? variants key = Entries.get? variants key := fun key => by
        rw [← Entries.get?_ofList, Entries.ofList_of_nodup hkeys]
      have hunion : Node.union name discriminator variants =
          Build.unionOfLast name discriminator variants := by
        rw [Build.unionOfLast, Node.union.injEq, and_iff_right rfl, and_iff_right rfl]
        refine hordered.symm.trans (List.map_congr_left fun option _ => ?_)
        rw [hlast, map_inOrder_eq_self_iff.2 (Entries.forall_mem_getD hfields option)]
      refine .union (fun entry hentry field hfield => ih entry hentry field hfield
        ((hentries entry hentry).2 field hfield) (hfields entry hentry field hfield))
        (Build.union_eq_ok_iff.2 ⟨Enumeration.validate_eq_ok_iff.2 hoptions, ?_, ?_, hunion⟩)
      · exact fun entry hentry => hperm.mem_iff.1 (List.mem_map_of_mem hentry)
      · exact fun key fields h => (hentries _ (Entries.mem_of_last?_eq_some h)).1

/-- **The trees that can be built** are the valid ones with their variants in order.  So no valid
schema is out of reach of the building functions, up to an order that nothing depends on. -/
theorem built_iff {node : Node} : Built node ↔ node.Valid ∧ node.inOrder = node :=
  ⟨fun h => ⟨h.valid, h.inOrder_eq⟩, fun h => .of_valid h.1 h.2⟩

end Node

/-- **Validation is complete, and the building functions are closed under it.**  A schema is
accepted exactly when its field names are distinct and every node that occurs in it, in the variants
of unions too, satisfies the invariant of its kind.  Every tree that is put together by the building
functions alone is accepted.  A variant that no option names cannot hide a defect, as it is a defect
of its union. -/
theorem validate_complete_and_built_valid :
    (∀ schema : Schema, schema.validate = .ok () ↔
      (schema.fields.map Node.name).Nodup ∧
        ∀ field ∈ schema.fields, ∀ m, Node.Occurs m field → m.Consistent) ∧
    ∀ node, Node.Built node → node.validate = .ok () := by
  refine ⟨fun schema => ?_, fun node h => Node.validate_eq_ok_iff.2 h.valid⟩
  rw [Schema.validate_eq_ok_iff]
  simp only [Node.valid_iff_forall_occurs]

/-- A union that is built with a variant missing, and a schema that is refused for an array in a
variant that no option names. -/
theorem validate_complete_and_built_valid_variants :
    (∃ node, Node.Build.union "action" ⟨"type", ["start", "stop"]⟩ [("stop", [.bool "now"])] =
        .ok node ∧ Node.Built node ∧ node.validate = .ok ()) ∧
    ¬Schema.validate ⟨"actions", [.optional "last" (.union "action" ⟨"type", ["stop"]⟩
        [("stop", []), ("start", [.array "delays" 2 1 (.bool "long")])])]⟩ = .ok () := by
  constructor
  · have hunion : Node.Build.union "action" ⟨"type", ["start", "stop"]⟩
        [("stop", [.bool "now"])] =
          .ok (.union "action" ⟨"type", ["start", "stop"]⟩
            [("start", []), ("stop", [.bool "now"])]) := rfl
    have hnow : ∀ pair ∈ [("stop", [Node.bool "now"])], ∀ field ∈ pair.2, Node.Built field :=
      List.forall_mem_singleton.2 (List.forall_mem_singleton.2 (.bool "now"))
    have hbuilt := Node.Built.union hnow hunion
    exact ⟨_, hunion, hbuilt, validate_complete_and_built_valid.2 _ hbuilt⟩
  · intro h
    have hdelays : Node.Occurs (.array "delays" 2 1 (.bool "long")) (.optional "last"
        (.union "action" ⟨"type", ["stop"]⟩
          [("stop", []), ("start", [.array "delays" 2 1 (.bool "long")])])) :=
      .inside List.mem_cons_self (.inside List.mem_cons_self .here)
    have hle : (2 : UInt32) ≤ 1 :=
      ((validate_complete_and_built_valid.1 _).1 h).2 _ List.mem_cons_self _ hdelays
    exact absurd hle (by decide)

end FieldGrammar
