import Mathlib
import FieldGrammar.Proofs.FittingData
import FieldGrammar.Proofs.Invariants
import FieldGrammar.Proofs.MetaSchemas

/-!
# Unrolled levels

The meta-schema of a bound on depth is a tree without pointers, and whatever the bound, it is one
that data are read from and written against without surprises: it is valid, it has no optional
nodes, and none of its unions has a field that hides the discriminator.

**Levels from the top.**  The union at level 1 describes the fields of a schema.  A union below the
bound offers every kind, and the one at the bound, or beyond it, the leaf kinds.  A bound of zero
therefore describes what a bound of one does.

**The number of unions.**  Four kinds are containers, and each of them nests one union of the next
level.  So the unions of a level are four times as many as those of the level above, and the
meta-schema of a bound `d` has `1 + 4 + ... + 4 ^ (d - 1)` of them.

## Main definitions

* `Node.unionCount` — the number of unions that a walk meets

## Main statements

* `MetaSchema.nodeUnion_sub` — what the union at a level from the top offers
* `MetaSchema.three_mul_unionCount` — the number of unions at and below a level
* `MetaSchema.plain_and_countP_union_fields` — the meta-schema of every bound
-/

namespace FieldGrammar

namespace Node

/-- The number of unions that a walk of the nodes meets. -/
def unionCount (nodes : List Node) : Nat :=
  (walkList nodes).countP fun m => m.kind == .union

theorem unionCount_nil : unionCount [] = 0 := rfl

theorem unionCount_append (nodes nodes' : List Node) :
    unionCount (nodes ++ nodes') = unionCount nodes + unionCount nodes' := by
  simp only [unionCount, walkList_eq, List.flatMap_append, List.countP_append]

theorem unionCount_cons (node : Node) (nodes : List Node) :
    unionCount (node :: nodes) = unionCount [node] + unionCount nodes :=
  unionCount_append [node] nodes

/-- A walk meets the node and what the walks of its children meet. -/
theorem unionCount_singleton (node : Node) :
    unionCount [node] = unionCount node.children + if node.kind = .union then 1 else 0 := by
  simp only [unionCount, walkList_eq, List.flatMap_singleton, walk_eq node, List.countP_cons,
    beq_iff_eq]

theorem unionCount_array (name : String) (minLength maxLength : UInt32) (item : Node) :
    unionCount [.array name minLength maxLength item] = unionCount [item] :=
  unionCount_singleton _

end Node

namespace MetaSchema

open Node

/-! ### Levels from the top -/

/-- **The union at a level from the top** offers every kind below the bound and leaf kinds at or
beyond it, and what a kind nests is described one level further down. -/
theorem nodeUnion_sub (depth level : Nat) (name : String) :
    nodeUnion (depth - level) name =
      unionOver name (Kind.all.filter fun kind => level < depth || !kind.isContainer)
        fun kind => attributes kind ++ contents (nodeUnion (depth - (level + 1))) kind := by
  by_cases h : level < depth
  · obtain ⟨levels, hlevels⟩ : ∃ levels, depth - level = levels + 1 := ⟨depth - level - 1, by omega⟩
    rw [hlevels, show depth - (level + 1) = levels by omega, nodeUnion]
    simp only [h, decide_true, Bool.true_or, List.filter_true]
  · rw [Nat.sub_eq_zero_of_le (Nat.not_lt.1 h)]
    simp only [h, decide_false, Bool.false_or]
    -- Leaf kinds nest nothing.
    rfl

/-! ### The number of unions -/

/-- The children of a union over kinds are the fields of the kinds. -/
theorem children_unionOver (name : String) (kinds : List Kind) (fields : Kind → List Node) :
    (unionOver name kinds fields).children = kinds.flatMap fields := by
  rw [unionOver, children, variantsInOrder, List.map_map, List.flatMap_map]
  refine List.flatMap_congr fun kind hkind => ?_
  show (Entries.get? _ kind.tag).getD [] = _
  rw [get?_variants hkind, Option.getD_some]

/-- No attribute is a union: all of them are numbers and lists of numbers. -/
theorem unionCount_attributes (kind : Kind) : unionCount (attributes kind) = 0 := by
  cases kind <;> rfl

/-- Each container kind nests one node. -/
theorem unionCount_contents {nested : String → Node} {count : Nat}
    (h : ∀ name, unionCount [nested name] = count) (kind : Kind) :
    unionCount (contents nested kind) = if kind.isContainer then count else 0 := by
  cases kind with
  | bool | int | fixed | enumeration | enumArray | pointer => rfl
  | optional | array => exact h _
  | object =>
      rw [contents, nodeList, unionCount_array]
      exact h _
  | union =>
      rw [contents, nodeList, unionCount_array, unionCount_array]
      exact h _

/-- Four of the kinds are containers. -/
theorem unionCount_kindFields_succ {levels count : Nat}
    (h : ∀ name, unionCount [nodeUnion levels name] = count) :
    unionCount (Kind.all.flatMap (kindFields (levels + 1))) = 4 * count := by
  have hkind : ∀ kind, unionCount (kindFields (levels + 1) kind) =
      if kind.isContainer then count else 0 := by
    intro kind
    rw [kindFields, unionCount_append, unionCount_attributes, unionCount_contents h, Nat.zero_add]
  simp only [Kind.all, List.flatMap_cons, List.flatMap_nil, unionCount_append, unionCount_nil,
    hkind, Kind.isContainer]
  simp only [if_true, if_false, Bool.false_eq_true]
  omega

/-- **The unions at and below a level** are the first terms of a geometric series.  The equation is
multiplied by three so that there is no division in it. -/
theorem three_mul_unionCount (levels : Nat) (name : String) :
    3 * unionCount [nodeUnion levels name] + 1 = 4 ^ (levels + 1) := by
  induction levels generalizing name with
  | zero =>
      have hleaf : unionCount [nodeUnion 0 name] = 1 := rfl
      rw [hleaf]
      rfl
  | succ levels ih =>
      obtain ⟨count, hcount⟩ : ∃ count, ∀ name, unionCount [nodeUnion levels name] = count :=
        ⟨(4 ^ (levels + 1) - 1) / 3, fun name => by have := ih name; omega⟩
      rw [unionCount_singleton, nodeUnion_eq, children_unionOver, kinds,
        unionCount_kindFields_succ hcount, unionOver, kind, if_pos rfl, pow_succ, ← ih name, hcount]
      ring

/-! ### The meta-schema -/

/-- Every node of the meta-schema is read and written plainly. -/
theorem pervasive_plain : Pervasive fun m =>
    m.kind ≠ .pointer ∧ m.kind ≠ .optional ∧ m.DiscriminatorApart where
  int _ _ _ _ := ⟨nofun, nofun, trivial⟩
  fixedBound _ := ⟨nofun, nofun, trivial⟩
  precision := ⟨nofun, nofun, trivial⟩
  array _ _ _ _ _ := ⟨nofun, nofun, trivial⟩
  object _ _ _ := ⟨nofun, nofun, trivial⟩
  union levels name := by
    rw [nodeUnion_eq]
    exact ⟨nofun, nofun, List.forall_mem_map.2 fun kind _ => kindName_notMem_names levels kind⟩

/-- **The shape of the meta-schema, for every bound on depth.**  It is a valid schema.  Whatever
occurs in it is no pointer and no optional node, and if it is a union, no variant has a field that
is called like the discriminator.  Its union at each level offers every kind below the bound and the
leaf kinds at the bound.  For a bound of at least one, a walk meets `(4 ^ depth - 1) / 3` unions,
and a bound of zero gives the meta-schema of one.  The number says how the meta-schema grows, as
each level is written out. -/
theorem plain_and_countP_union_fields (depth : Nat) :
    (∀ name, Schema.validate ⟨name, fields depth⟩ = .ok ()) ∧
      (∀ field ∈ fields depth, ∀ m, Occurs m field →
        m.kind ≠ .pointer ∧ m.kind ≠ .optional ∧ ∀ name discriminator variants,
          m = .union name discriminator variants →
            ∀ entry ∈ variants, ∀ field ∈ entry.2, field.name ≠ discriminator.name) ∧
      (∀ level name, nodeUnion (depth - level) name =
        unionOver name (Kind.all.filter fun kind => level < depth || !kind.isContainer)
          fun kind => attributes kind ++ contents (nodeUnion (depth - (level + 1))) kind) ∧
      (1 ≤ depth → (walkList (fields depth)).countP (fun m => m.kind == .union) =
        (4 ^ depth - 1) / 3) ∧
      fields 0 = fields 1 := by
  have hvalid : ∀ name, Schema.validate ⟨name, fields depth⟩ = .ok () := fun name =>
    validate_fields name depth
  refine ⟨hvalid, ?_, nodeUnion_sub depth, ?_, rfl⟩
  · intro field hfield m hm
    have hfieldValid := (Schema.validate_eq_ok_iff.1 (hvalid "")).2 field hfield
    have hwalk := hfieldValid.occurs_iff_mem_walk.1 hm
    obtain ⟨hpointer, hoptional, hapart⟩ :=
      pervasive_plain.of_mem_fields (mem_walkList.2 ⟨field, hfield, hwalk⟩)
    refine ⟨hpointer, hoptional, ?_⟩
    rintro name discriminator variants rfl entry hentry field hfield hname
    exact hapart entry hentry (List.mem_map.2 ⟨field, hfield, hname⟩)
  · intro hdepth
    have hcount := three_mul_unionCount (depth - 1) "field"
    rw [Nat.sub_add_cancel hdepth] at hcount
    show unionCount (fields depth) = _
    rw [fields, unionCount_cons, unionCount_cons (nodeList _ _), nodeList, unionCount_array]
    show 0 + (unionCount [nodeUnion (depth - 1) "field"] + 0) = _
    omega

/-- The second level of the meta-schema of bound 2 has the last four unions. -/
theorem plain_and_countP_union_fields_two :
    nodeList "fields" (nodeUnion 1 "field") ∈ fields 2 ∧
      Occurs (nodeUnion 0 "inner") (nodeList "fields" (nodeUnion 1 "field")) ∧
      (nodeUnion 0 "inner").kind ≠ .pointer ∧
      1 ≤ 2 ∧ (walkList (fields 2)).countP (fun m => m.kind == .union) = 5 := by
  have hmem : nodeList "fields" (nodeUnion 1 "field") ∈ fields 2 := by simp [fields]
  have hinner : nodeUnion 0 "inner" ∈ (nodeUnion 1 "field").contents :=
    List.mem_flatMap.2 ⟨_, List.mem_map.2 ⟨.optional, Kind.mem_all _, rfl⟩, by simp [contents]⟩
  have hoccurs : Occurs (nodeUnion 0 "inner") (nodeList "fields" (nodeUnion 1 "field")) :=
    .inside List.mem_cons_self (.inside hinner .here)
  obtain ⟨-, hplain, -, hcount, -⟩ := plain_and_countP_union_fields 2
  exact ⟨hmem, hoccurs, (hplain _ hmem _ hoccurs).1, by decide, hcount (by decide)⟩

end MetaSchema

end FieldGrammar
