import Mathlib
import FieldGrammar.Node.Check
import FieldGrammar.Node.Scope
import FieldGrammar.Proofs.Lookup
import FieldGrammar.Proofs.Results

/-!
# Trees of nodes

What holds of a whole tree of nodes is shown by induction over its constructors, where a list of
fields contributes a hypothesis for each of its members and a union one for each field of each
of its stored variants.

A node is *valid* when the attributes of every node of its walk pass their check.  Validation
succeeds exactly on valid nodes, and validity of a node is validity of what it contains together
with a condition on its own attributes, one equivalence for each kind.

## Main statements

* `Node.induction`, `Node.induction_contents` — the induction over trees
* `Node.walk_subset_of_mem` — a descendant of a descendant is a descendant
* `Node.depth_le_iff_children` — depth, level by level
* `Node.validate_eq_ok_iff`, `Schema.validate_eq_ok_iff` — what validation accepts
* `Node.valid_object_iff`, `Node.valid_union_iff` — validity, level by level
* `Node.InPlace.walk_apply`, `Node.InPlace.resolveTarget_map` — nodes changed in place
-/

namespace FieldGrammar

namespace Node

/-! ### Induction -/

/-- A property holds of every node if each kind inherits it from the nodes that it contains.  Lists
of fields and variants, over which the recursion is mutual, do not appear in it. -/
@[elab_as_elim, induction_eliminator]
theorem induction {P : Node → Prop}
    (bool : ∀ name, P (.bool name))
    (int : ∀ name min max, P (.int name min max))
    (fixed : ∀ name min max precision, P (.fixed name min max precision))
    (enumeration : ∀ e, P (.enumeration e))
    (optional : ∀ name inner, P inner → P (.optional name inner))
    (array : ∀ name minLength maxLength item, P item → P (.array name minLength maxLength item))
    (enumArray : ∀ name minLength maxLength e, P (.enumArray name minLength maxLength e))
    (object : ∀ name fields, (∀ field ∈ fields, P field) → P (.object name fields))
    (union : ∀ name discriminator variants,
      (∀ entry ∈ variants, ∀ field ∈ entry.2, P field) → P (.union name discriminator variants))
    (pointer : ∀ name target, P (.pointer name target)) (node : Node) : P node := by
  refine @Node.rec P (fun fields => ∀ field ∈ fields, P field)
    (fun variants => ∀ entry ∈ variants, ∀ field ∈ entry.2, P field)
    (fun entry => ∀ field ∈ entry.2, P field)
    bool int fixed enumeration optional array enumArray object union pointer
    ?_ ?_ ?_ ?_ ?_ node
  · intro field h
    cases h
  · intro head tail hhead htail
    exact List.forall_mem_cons.2 ⟨hhead, htail⟩
  · intro entry h
    cases h
  · intro head tail hhead htail
    exact List.forall_mem_cons.2 ⟨hhead, htail⟩
  · intro key fields hfields
    exact hfields

/-! ### Walks -/

theorem mem_walkList {node : Node} {fields : List Node} :
    node ∈ walkList fields ↔ ∃ field ∈ fields, node ∈ field.walk := by
  rw [walkList_eq, List.mem_flatMap]

/-- What is met in a walk is the node itself or is met below one of its children. -/
theorem mem_walk {m node : Node} :
    m ∈ node.walk ↔ m = node ∨ ∃ child ∈ node.children, m ∈ child.walk := by
  rw [walk_eq, List.mem_cons, List.mem_flatMap]

theorem mem_walk_self (node : Node) : node ∈ node.walk :=
  mem_walk.2 (.inl rfl)

/-- What holds along a walk holds of the node and along the walks of its children. -/
theorem forall_mem_walk_iff {P : Node → Prop} {node : Node} :
    (∀ m ∈ node.walk, P m) ↔ P node ∧ ∀ child ∈ node.children, ∀ m ∈ child.walk, P m := by
  constructor
  · intro h
    exact ⟨h node (mem_walk_self node), fun child hchild m hm =>
      h m (mem_walk.2 (.inr ⟨child, hchild, hm⟩))⟩
  · rintro ⟨hself, hchildren⟩ m hm
    rcases mem_walk.1 hm with rfl | ⟨child, hchild, hm⟩
    · exact hself
    · exact hchildren child hchild m hm

theorem forall_mem_walk_leaf_iff {P : Node → Prop} {node : Node} (h : node.children = []) :
    (∀ m ∈ node.walk, P m) ↔ P node := by
  rw [forall_mem_walk_iff, h]
  simp

/-- The children of a union are the fields that some option finds. -/
theorem mem_children_union {name : String} {discriminator : Enumeration}
    {variants : Entries (List Node)} {child : Node} :
    child ∈ (union name discriminator variants).children ↔
      ∃ option ∈ discriminator.options, child ∈ (Entries.get? variants option).getD [] := by
  simp only [children, variantsInOrder, List.mem_flatMap, List.mem_map]
  constructor
  · rintro ⟨_, ⟨option, hoption, rfl⟩, hchild⟩
    exact ⟨option, hoption, hchild⟩
  · rintro ⟨option, hoption, hchild⟩
    exact ⟨_, ⟨option, hoption, rfl⟩, hchild⟩

/-- The nodes directly below a node, visited or not: those of a union are the fields of all variants
that are stored. -/
def contents : Node → List Node
  | optional _ inner => [inner]
  | array _ _ _ item => [item]
  | object _ fields => fields
  | union _ _ variants => variants.flatMap Prod.snd
  | _ => []

/-- What is visited is stored.  The converse fails for a union with a variant that no option names.
-/
theorem children_subset_contents (node : Node) : node.children ⊆ node.contents := by
  cases node with
  | union name discriminator variants =>
      intro child hchild
      obtain ⟨option, -, hmem⟩ := mem_children_union.1 hchild
      obtain ⟨entry, hentry, hmem⟩ := Entries.exists_mem_of_mem_getD hmem
      exact List.mem_flatMap.2 ⟨entry, hentry, hmem⟩
  | bool | int | fixed | enumeration | optional | array | enumArray | object | pointer =>
      exact fun _ => id

/-- A property holds of every node if each node inherits it from its contents.  This is the form for
properties of all that is stored, such as what a description writes. -/
theorem induction_contents {P : Node → Prop}
    (step : ∀ node : Node, (∀ child ∈ node.contents, P child) → P node) (node : Node) : P node := by
  induction node with
  | bool | int | fixed | enumeration | enumArray | pointer =>
      refine step _ fun child h => ?_
      cases h
  | optional name inner ih => exact step _ fun child h => List.mem_singleton.1 h ▸ ih
  | array name lo hi item ih => exact step _ fun child h => List.mem_singleton.1 h ▸ ih
  | object name fields ih => exact step _ ih
  | union name discriminator variants ih =>
      refine step _ fun child h => ?_
      obtain ⟨entry, hentry, hmem⟩ := List.mem_flatMap.1 h
      exact ih entry hentry child hmem

/-- A property holds of every node if each node inherits it from its children.  This is the form for
properties of what is visited, such as validity. -/
theorem induction_children {P : Node → Prop}
    (step : ∀ node : Node, (∀ child ∈ node.children, P child) → P node) (node : Node) : P node := by
  induction node using induction_contents with
  | step node ih => exact step node fun child h => ih child (children_subset_contents node h)

/-- A descendant of a descendant is a descendant. -/
theorem walk_subset_of_mem {m node : Node} (h : m ∈ node.walk) : m.walk ⊆ node.walk := by
  induction node using induction_children with
  | step node ih =>
      rcases mem_walk.1 h with rfl | ⟨child, hchild, hm⟩
      · exact fun _ => id
      · intro n hn
        exact mem_walk.2 (.inr ⟨child, hchild, ih child hchild hm hn⟩)

/-- What is met below a node that is met in a list of fields is met in the list as well. -/
theorem walk_subset_walkList {m : Node} {fields : List Node} (h : m ∈ walkList fields) :
    m.walk ⊆ walkList fields := by
  obtain ⟨field, hfield, hm⟩ := mem_walkList.1 h
  intro n hn
  exact mem_walkList.2 ⟨field, hfield, walk_subset_of_mem hm hn⟩

/-! ### Depths -/

theorem depthList_le_iff {fields : List Node} {bound : Nat} :
    depthList fields ≤ bound ↔ ∀ field ∈ fields, field.depth ≤ bound := by
  induction fields with
  | nil => simp [depthList]
  | cons field rest ih => rw [depthList, max_le_iff, ih, List.forall_mem_cons]

private theorem foldl_max_le_iff {depths : List Nat} {start bound : Nat} :
    depths.foldl max start ≤ bound ↔ start ≤ bound ∧ ∀ d ∈ depths, d ≤ bound := by
  induction depths generalizing start with
  | nil => simp
  | cons d depths ih => rw [List.foldl_cons, ih, max_le_iff, List.forall_mem_cons, and_assoc]

/-- There is no depth zero: a leaf is one level. -/
theorem one_le_depth (node : Node) : 1 ≤ node.depth := by
  cases node <;> simp [depth]

/-- What contains nodes is at least two levels deep. -/
theorem depth_le_one_iff {node : Node} : node.depth ≤ 1 ↔ node.kind.isContainer = false := by
  cases node with
  | bool | int | fixed | enumeration | enumArray | pointer => simp [depth, kind, Kind.isContainer]
  | optional name inner =>
      have hinner := inner.one_le_depth
      simp only [depth, kind, Kind.isContainer, reduceCtorEq, iff_false]
      omega
  | array name minLength maxLength item =>
      have hitem := item.one_le_depth
      simp only [depth, kind, Kind.isContainer, reduceCtorEq, iff_false]
      omega
  | object name fields =>
      simp only [depth, kind, Kind.isContainer, reduceCtorEq, iff_false]
      omega
  | union name discriminator variants =>
      have hone : ¬ (discriminator.options.map fun option =>
          depthAt variants option).foldl max 1 ≤ 0 := by
        rw [foldl_max_le_iff]
        omega
      simp only [depth, kind, Kind.isContainer, reduceCtorEq, iff_false]
      omega

/-- A node is one level deeper than its children. -/
theorem depth_le_iff_children {node : Node} {bound : Nat} :
    node.depth ≤ bound + 2 ↔ ∀ child ∈ node.children, child.depth ≤ bound + 1 := by
  cases node with
  | bool | int | fixed | enumeration | enumArray | pointer => simp [depth, children]
  | optional name inner =>
      simp only [depth, children, List.forall_mem_singleton]
      omega
  | array name minLength maxLength item =>
      simp only [depth, children, List.forall_mem_singleton]
      omega
  | object name fields =>
      have hfields := @depthList_le_iff fields (bound + 1)
      simp only [depth, children]
      rw [← hfields]
      omega
  | union name discriminator variants =>
      have hoptions := @foldl_max_le_iff
        (discriminator.options.map fun option => depthAt variants option) 1 (bound + 1)
      simp only [List.forall_mem_map, depthAt_eq, depthList_le_iff] at hoptions
      simp only [depth, mem_children_union, depthAt_eq]
      constructor
      · rintro h child ⟨option, hoption, hchild⟩
        exact (hoptions.1 (by omega)).2 option hoption child hchild
      · intro h
        have hle := hoptions.2 ⟨by omega, fun option hoption child hchild =>
          h child ⟨option, hoption, hchild⟩⟩
        omega

end Node

/-! ### Checks -/

/-- The check of names looks for the first one that recurs, and passes when there is none. -/
theorem checkDistinctNames_eq_ok_iff {owner : String} {fields : List Node} :
    checkDistinctNames owner fields = .ok () ↔ (fields.map Node.name).Nodup := by
  rw [← firstRepeated?_eq_none_iff, checkDistinctNames]
  split <;> simp_all

theorem checkLengths_eq_ok_iff {name : String} {minLength maxLength : UInt32} :
    checkLengths name minLength maxLength = .ok () ↔ minLength ≤ maxLength := by
  rw [checkLengths, ← UInt32.not_lt]
  split <;> simp_all

/-- An enumeration is valid when it has options and none twice. -/
theorem Enumeration.validate_eq_ok_iff {e : Enumeration} :
    e.validate = .ok () ↔ e.options ≠ [] ∧ e.options.Nodup := by
  rw [← firstRepeated?_eq_none_iff, validate]
  split
  · simp_all
  · split <;> simp_all

/-- The names of fields have to be distinct within each stored variant, and may recur across
variants. -/
theorem checkVariantNames_eq_ok_iff {owner : String} {variants : Entries (List Node)} :
    checkVariantNames owner variants = .ok () ↔
      ∀ entry ∈ variants, (entry.2.map Node.name).Nodup := by
  induction variants with
  | nil => simp [checkVariantNames]
  | cons entry rest ih =>
      obtain ⟨key, fields⟩ := entry
      rw [checkVariantNames, unit_bind_eq_ok_iff, checkDistinctNames_eq_ok_iff, ih,
        List.forall_mem_cons]

/-- With distinct options, the variants match when their names are the options in some order. -/
theorem variantsMatch_iff {discriminator : Enumeration} {variants : Entries (List Node)}
    (h : discriminator.options.Nodup) :
    variantsMatch discriminator variants = true ↔
      (Entries.keys variants).Perm discriminator.options := by
  simp only [variantsMatch, Bool.and_eq_true, beq_iff_eq, List.all_eq_true, Entries.contains_iff]
  constructor
  · rintro ⟨hlength, hmem⟩
    refine ((h.subperm hmem).perm_of_length_le ?_).symm
    rw [Entries.keys, List.length_map, hlength]
  · intro hperm
    refine ⟨?_, fun option hoption => hperm.mem_iff.2 hoption⟩
    rw [← hperm.length_eq, Entries.keys, List.length_map]

namespace Node

/-! ### Validity -/

/-- Every node of the walk passes its check.  Validation is a recursion that stops at the first
failure; this says what it looks for. -/
def Valid (node : Node) : Prop :=
  ∀ m ∈ node.walk, m.check = .ok ()

/-- Validity goes down one level: a node passes its check and its children are valid. -/
theorem valid_iff {node : Node} :
    node.Valid ↔ node.check = .ok () ∧ ∀ child ∈ node.children, child.Valid := by
  constructor
  · intro h
    refine ⟨h node (mem_walk_self node), fun child hchild m hm => ?_⟩
    exact h m (mem_walk.2 (.inr ⟨child, hchild, hm⟩))
  · rintro ⟨hcheck, hchildren⟩ m hm
    rcases mem_walk.1 hm with rfl | ⟨child, hchild, hm⟩
    · exact hcheck
    · exact hchildren child hchild m hm

/-- What a valid node contains is valid. -/
theorem Valid.of_mem_walk {m node : Node} (h : node.Valid) (hm : m ∈ node.walk) : m.Valid :=
  fun n hn => h n (walk_subset_of_mem hm hn)

theorem validateList_eq_ok_iff {fields : List Node} :
    validateList fields = .ok () ↔ ∀ field ∈ fields, field.validate = .ok () := by
  induction fields with
  | nil => simp [validateList]
  | cons field rest ih =>
      rw [validateList, unit_bind_eq_ok_iff, ih, List.forall_mem_cons]

/-- Looking a variant up and testing it is testing it where it stands. -/
theorem validateAt_eq (variants : Entries (List Node)) (option : String) :
    validateAt variants option = validateList ((Entries.get? variants option).getD []) :=
  Entries.search_getD_eq (f := (validateAt · option)) rfl (fun _ _ _ => by rw [validateAt]) variants

/-- Validation tests a node and then its children. -/
theorem validate_eq_ok_iff_children {node : Node} :
    node.validate = .ok () ↔
      node.check = .ok () ∧ ∀ child ∈ node.children, child.validate = .ok () := by
  cases node with
  | bool | int | fixed | enumeration | enumArray | pointer => simp [validate, children]
  | optional name inner => simp [validate, children, unit_bind_eq_ok_iff]
  | array name lo hi item => simp [validate, children, unit_bind_eq_ok_iff]
  | object name fields => rw [validate, unit_bind_eq_ok_iff, validateList_eq_ok_iff]; rfl
  | union name discriminator variants =>
      rw [validate, unit_bind_eq_ok_iff, forM_eq_ok_iff]
      simp only [validateAt_eq, validateList_eq_ok_iff, mem_children_union]
      refine and_congr_right fun _ => ⟨?_, ?_⟩
      · rintro h child ⟨option, hoption, hchild⟩
        exact h option hoption child hchild
      · intro h option hoption child hchild
        exact h child ⟨option, hoption, hchild⟩

/-- **Validation accepts exactly the valid nodes.**  From here on validity is used and validation is
not. -/
theorem validate_eq_ok_iff {node : Node} : node.validate = .ok () ↔ node.Valid := by
  induction node using induction_children with
  | step node ih =>
      rw [validate_eq_ok_iff_children, valid_iff]
      exact and_congr_right fun _ => forall₂_congr fun child hchild => ih child hchild

theorem valid_int_iff {name : String} {min max : Int64} :
    (int name min max).Valid ↔ min ≤ max := by
  rw [valid_iff, check, ← Int64.not_lt]
  split <;> simp_all [children]

/-- A number with a point needs finite attributes, bounds that are not the wrong way round, and a
precision above zero.  The comparisons are those of floating-point numbers, negated as the check has
them. -/
theorem valid_fixed_iff {name : String} {min max precision : Float} :
    (fixed name min max precision).Valid ↔
      (min.isFinite = true ∧ max.isFinite = true ∧ precision.isFinite = true) ∧
        ¬max < min ∧ ¬precision ≤ 0.0 := by
  rw [valid_iff, check, ← Bool.and_eq_true, ← Bool.and_eq_true, ← Bool.and_assoc]
  by_cases hfinite : (min.isFinite && max.isFinite && precision.isFinite) = true
  · rw [hfinite, if_neg (by decide)]
    split
    · simp_all
    · split <;> simp_all [children]
  · rw [Bool.not_eq_true] at hfinite
    rw [hfinite, Bool.not_false, if_pos rfl]
    simp only [reduceCtorEq, false_and]

theorem valid_enumeration_iff {e : Enumeration} :
    (enumeration e).Valid ↔ e.options ≠ [] ∧ e.options.Nodup := by
  rw [valid_iff, check, Enumeration.validate_eq_ok_iff]
  simp [children]

/-- An optional node has no attributes of its own to check. -/
theorem valid_optional_iff {name : String} {inner : Node} :
    (optional name inner).Valid ↔ inner.Valid := by
  rw [valid_iff, check]
  simp [children]

theorem valid_array_iff {name : String} {minLength maxLength : UInt32} {item : Node} :
    (array name minLength maxLength item).Valid ↔ minLength ≤ maxLength ∧ item.Valid := by
  rw [valid_iff, check, checkLengths_eq_ok_iff]
  simp [children]

theorem valid_enumArray_iff {name : String} {minLength maxLength : UInt32} {e : Enumeration} :
    (enumArray name minLength maxLength e).Valid ↔
      minLength ≤ maxLength ∧ e.options ≠ [] ∧ e.options.Nodup := by
  rw [valid_iff, check, unit_bind_eq_ok_iff, checkLengths_eq_ok_iff,
    Enumeration.validate_eq_ok_iff]
  simp [children]

/-- The fields of an object have distinct names and are valid. -/
theorem valid_object_iff {name : String} {fields : List Node} :
    (object name fields).Valid ↔
      (fields.map Node.name).Nodup ∧ ∀ field ∈ fields, field.Valid := by
  rw [valid_iff, check, checkDistinctNames_eq_ok_iff]
  rfl

/-- The check of a union: the options are those of a valid enumeration, the names of the variants
are the options in some order, and the fields of each variant have distinct names. -/
theorem check_union_eq_ok_iff {name : String} {discriminator : Enumeration}
    {variants : Entries (List Node)} :
    (union name discriminator variants).check = .ok () ↔
      (discriminator.options ≠ [] ∧ discriminator.options.Nodup) ∧
        (Entries.keys variants).Perm discriminator.options ∧
          ∀ entry ∈ variants, (entry.2.map Node.name).Nodup := by
  rw [check, unit_bind_eq_ok_iff, Enumeration.validate_eq_ok_iff]
  refine and_congr_right fun hoptions => ?_
  rw [← variantsMatch_iff hoptions.2, ← @checkVariantNames_eq_ok_iff name]
  split <;> simp_all

/-- What the options find is what is stored when the names of the variants are the options. -/
theorem forall_option_iff {options : List String} {variants : Entries (List Node)}
    (hoptions : options.Nodup) (hperm : (Entries.keys variants).Perm options)
    (P : List Node → Prop) :
    (∀ option ∈ options, P ((Entries.get? variants option).getD [])) ↔
      ∀ entry ∈ variants, P entry.2 := by
  have hkeys : (Entries.keys variants).Nodup := hperm.nodup_iff.2 hoptions
  constructor
  · intro h entry hentry
    have hoption := h entry.1 (hperm.mem_iff.1 (List.mem_map_of_mem hentry))
    rwa [(Entries.get?_eq_some_iff hkeys).2 hentry] at hoption
  · intro h option hoption
    obtain ⟨entry, hentry, rfl⟩ := List.mem_map.1 (hperm.mem_iff.2 hoption)
    rw [(Entries.get?_eq_some_iff hkeys).2 hentry]
    exact h entry hentry

/-- The fields of every stored variant of a valid union are reached through an option.  So validity
says something of all of them, and not only of those that are visited. -/
theorem valid_union_iff {name : String} {discriminator : Enumeration}
    {variants : Entries (List Node)} :
    (union name discriminator variants).Valid ↔
      (discriminator.options ≠ [] ∧ discriminator.options.Nodup) ∧
        (Entries.keys variants).Perm discriminator.options ∧
          ∀ entry ∈ variants, (entry.2.map Node.name).Nodup ∧ ∀ field ∈ entry.2, field.Valid := by
  rw [valid_iff, check_union_eq_ok_iff]
  constructor
  · rintro ⟨⟨hoptions, hperm, hnames⟩, hchildren⟩
    have hfields := (forall_option_iff hoptions.2 hperm fun fields =>
      ∀ field ∈ fields, field.Valid).1 fun option hoption field hfield =>
        hchildren field (mem_children_union.2 ⟨option, hoption, hfield⟩)
    exact ⟨hoptions, hperm, fun entry hentry => ⟨hnames entry hentry, hfields entry hentry⟩⟩
  · rintro ⟨hoptions, hperm, hentries⟩
    refine ⟨⟨hoptions, hperm, fun entry hentry => (hentries entry hentry).1⟩, ?_⟩
    intro child hchild
    obtain ⟨entry, hentry, hmem⟩ := List.mem_flatMap.1 (children_subset_contents _ hchild)
    exact (hentries entry hentry).2 child hmem

/-- What holds of the children of a valid union holds of the fields of every stored variant. -/
theorem forall_variants_of_children {name : String} {discriminator : Enumeration}
    {variants : Entries (List Node)} (hvalid : (union name discriminator variants).Valid)
    {P : Node → Prop} (h : ∀ child ∈ (union name discriminator variants).children, P child) :
    ∀ entry ∈ variants, ∀ field ∈ entry.2, P field := by
  obtain ⟨⟨-, hnodup⟩, hperm, -⟩ := valid_union_iff.1 hvalid
  refine (forall_option_iff hnodup hperm fun fields => ∀ field ∈ fields, P field).1 ?_
  exact fun option hoption field hfield =>
    h field (mem_children_union.2 ⟨option, hoption, hfield⟩)

end Node

/-- **Validation accepts exactly the schemas with distinct field names and valid fields.** -/
theorem Schema.validate_eq_ok_iff {schema : Schema} :
    schema.validate = .ok () ↔
      (schema.fields.map Node.name).Nodup ∧ ∀ field ∈ schema.fields, field.Valid := by
  rw [validate, unit_bind_eq_ok_iff, checkDistinctNames_eq_ok_iff, Node.validateList_eq_ok_iff]
  simp only [Node.validate_eq_ok_iff]

/-- What a pointer resolves to is valid if the fields of the schema are. -/
theorem valid_of_resolveTarget {scope : List Node} {target : String} {node : Node}
    (hscope : ∀ field ∈ scope, field.Valid) (h : resolveTarget scope target = some node) :
    node.Valid := by
  obtain ⟨field, hfield, hmem⟩ := Node.mem_walkList.1 (resolveTarget_some h).2.2
  exact (hscope field hfield).of_mem_walk hmem

/-! ### Nodes changed in place -/

/-- The function changes every node in place: names and pointers stay as they are, and the children
of a changed node are the changed children. -/
structure Node.InPlace (f : Node → Node) : Prop where
  name_eq : ∀ node, (f node).name = node.name
  isPointer_eq : ∀ node, (f node).isPointer = node.isPointer
  pointer_eq : ∀ name target, f (.pointer name target) = .pointer name target
  children_eq : ∀ node, (f node).children = node.children.map f

namespace Node.InPlace

variable {f : Node → Node} (hf : InPlace f)

include hf

/-- **The walk of a changed node is the changed walk.**  So what is checked along a walk is checked
along the walk of the changed node. -/
theorem walk_apply (node : Node) : (f node).walk = node.walk.map f := by
  induction node using induction_children with
  | step node ih =>
      rw [walk_eq, walk_eq node, hf.children_eq, List.map_cons, List.flatMap_map, List.map_flatMap]
      exact congrArg _ (List.flatMap_congr ih)

theorem walkList_map (fields : List Node) : walkList (fields.map f) = (walkList fields).map f := by
  rw [walkList_eq, walkList_eq, List.flatMap_map, List.map_flatMap]
  exact List.flatMap_congr fun field _ => hf.walk_apply field

/-- Names stay as they are, so that whatever is said of names alone carries over. -/
theorem names_map (fields : List Node) : (fields.map f).map name = fields.map name := by
  rw [List.map_map]
  exact List.map_congr_left fun field _ => hf.name_eq field

/-- A pointer has the same target as before, changed. -/
theorem resolveTarget_map (fields : List Node) (target : String) :
    resolveTarget (fields.map f) target = (resolveTarget fields target).map f := by
  rw [resolveTarget_eq_find?, resolveTarget_eq_find?, hf.walkList_map, List.find?_map]
  simp only [Function.comp_def, hf.isPointer_eq, hf.name_eq]

/-- A pointer without a target stays one, with the same error. -/
theorem danglingError?_apply (fields : List Node) (node : Node) :
    danglingError? (fields.map f) (f node) = danglingError? fields node := by
  have hnode := hf.isPointer_eq node
  cases node with
  | pointer name target =>
      rw [hf.pointer_eq, danglingError?, danglingError?, hf.resolveTarget_map, Option.isNone_map]
  | bool | int | fixed | enumeration | optional | array | enumArray | object | union =>
      generalize f _ = changed at hnode
      cases changed with
      | pointer => cases hnode
      | bool | int | fixed | enumeration | optional | array | enumArray | object | union => rfl

/-- **Pointers are resolved alike**, or the same pointer is reported. -/
theorem resolvePointers_map (name : String) (fields : List Node) :
    Schema.resolvePointers ⟨name, fields.map f⟩ = Schema.resolvePointers ⟨name, fields⟩ := by
  rw [Schema.resolvePointers_eq, Schema.resolvePointers_eq]
  dsimp only
  rw [hf.walkList_map, List.findSome?_map]
  simp only [Function.comp_def, hf.danglingError?_apply]

end Node.InPlace

end FieldGrammar
