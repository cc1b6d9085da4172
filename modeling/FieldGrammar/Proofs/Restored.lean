import Mathlib
import FieldGrammar.Proofs.Description
import FieldGrammar.Proofs.Grids
import FieldGrammar.Proofs.Sameness
import FieldGrammar.Proofs.Trees

/-!
# What comes back from a token

A token gives a schema back with two changes that no comparison sees: the variants of a union
stand in the order of the options, and a fixed-point attribute is the number at its step, which
may be the other zero.  `Node.restored` is the node with these changes.

Everything that is checked about a node is the same before and after.  Validity needs that equal
numbers compare alike.  Nodes are changed in place, so walks are restored walks and pointers are
resolved alike.

## Main statements

* `Node.inPlace_restored` — nodes are changed in place
* `Node.valid_restored` — a restored node is valid
* `Node.same_restored` — a restored node is the same as the node
-/

namespace FieldGrammar

/-- The number at the step of a number on the grid of tokens. -/
def MetaSchema.restore (x : Float) : Float :=
  grid.valueOf (grid.stepsOf x)

namespace Node

mutual

/-- The node as a token gives it back: its variants in the order of its options, its fixed-point
attributes at their steps, and everything below it likewise. -/
def restored : Node → Node
  | fixed name min max precision =>
    fixed name (MetaSchema.restore min) (MetaSchema.restore max) (MetaSchema.restore precision)
  | optional name inner => optional name inner.restored
  | array name minLength maxLength item => array name minLength maxLength item.restored
  | object name fields => object name (restoredList fields)
  | union name discriminator variants =>
    union name discriminator
      (discriminator.options.map fun option => (option, restoredAt variants option))
  | bool name => bool name
  | int name min max => int name min max
  | enumeration e => enumeration e
  | enumArray name minLength maxLength e => enumArray name minLength maxLength e
  | pointer name target => pointer name target

/-- The nodes of a list as a token gives them back. -/
def restoredList : List Node → List Node
  | [] => []
  | field :: rest => field.restored :: restoredList rest

/-- The fields of a variant as a token gives them back. -/
def restoredAt : List (String × List Node) → String → List Node
  | [], _ => []
  | (key, fields) :: rest, option =>
    if key = option then restoredList fields else restoredAt rest option

end

theorem restoredList_eq (fields : List Node) : restoredList fields = fields.map restored := by
  induction fields with
  | nil => rfl
  | cons field rest ih => rw [restoredList, ih, List.map_cons]

theorem restoredAt_eq (variants : Entries (List Node)) (option : String) :
    restoredAt variants option = ((Entries.get? variants option).getD []).map restored :=
  Entries.search_getD_eq (f := (restoredAt · option)) rfl
    (fun _ _ _ => by rw [restoredAt, restoredList_eq]) variants

/-- The fields that an option finds in a restored union. -/
theorem get?_restored {options : List String} {option : String} (hoption : option ∈ options)
    (variants : Entries (List Node)) :
    Entries.get? (options.map fun option => (option, restoredAt variants option)) option =
      some (((Entries.get? variants option).getD []).map restored) := by
  rw [Entries.get?_map_self _ hoption, restoredAt_eq]

/-! ### Walks -/

theorem children_restored (node : Node) :
    node.restored.children = node.children.map restored := by
  cases node with
  | bool | int | fixed | enumeration | enumArray | pointer => rfl
  | optional name inner => rfl
  | array name minLength maxLength item => rfl
  | object name fields => exact restoredList_eq fields
  | union name discriminator variants =>
      simp only [restored, children, variantsInOrder, List.flatMap_map, List.map_flatMap]
      refine List.flatMap_congr fun option hoption => ?_
      rw [get?_restored hoption, Option.getD_some]

/-- **Restoring changes nodes in place.**  So walks, targets and the resolution of pointers come for
free. -/
theorem inPlace_restored : InPlace restored where
  name_eq node := by cases node <;> rfl
  isPointer_eq node := by cases node <;> rfl
  pointer_eq _ _ := rfl
  children_eq := children_restored

/-! ### Validity -/

/-- A restored node passes the check that the node passes.  Attributes on the grid are restored to
equal numbers, which compare alike. -/
theorem check_restored {node : Node} (h : node.check = .ok ()) (hgrid : node.OnGrid) :
    node.restored.check = .ok () := by
  cases node with
  | bool | int | enumeration | enumArray | pointer => exact h
  | optional name inner => rfl
  | array name minLength maxLength item => exact h
  | fixed name min max precision =>
      obtain ⟨hmin, hmax, hprecision⟩ := hgrid
      have hvalid : (fixed name min max precision).Valid :=
        valid_iff.2 ⟨h, fun child hchild => by cases hchild⟩
      obtain ⟨⟨hfinite, hfinite', hfinite''⟩, hle, hpos⟩ := valid_fixed_iff.1 hvalid
      refine (valid_iff.1 (valid_fixed_iff.2 ⟨⟨?_, ?_, ?_⟩, ?_, ?_⟩)).1
      · rw [MetaSchema.restore, Binary64.isFinite_congr hmin]
        exact hfinite
      · rw [MetaSchema.restore, Binary64.isFinite_congr hmax]
        exact hfinite'
      · rw [MetaSchema.restore, Binary64.isFinite_congr hprecision]
        exact hfinite''
      · rw [MetaSchema.restore, MetaSchema.restore, Binary64.lt_congr hmax hmin]
        exact hle
      · rw [MetaSchema.restore, Binary64.le_congr_left hprecision]
        exact hpos
  | object name fields =>
      rw [check, checkDistinctNames_eq_ok_iff] at h
      rw [restored, restoredList_eq, check, checkDistinctNames_eq_ok_iff,
        inPlace_restored.names_map]
      exact h
  | union name discriminator variants =>
      obtain ⟨⟨hne, hnodup⟩, hperm, hnames⟩ := check_union_eq_ok_iff.1 h
      refine check_union_eq_ok_iff.2 ⟨⟨hne, hnodup⟩, by simp [Entries.keys, Function.comp_def], ?_⟩
      rw [List.forall_mem_map]
      intro option hoption
      rw [restoredAt_eq, inPlace_restored.names_map]
      exact (forall_option_iff hnodup hperm fun fields => (fields.map Node.name).Nodup).2 hnames
        option hoption

/-- **A restored node is valid** if the node is and its attributes are on the grid. -/
theorem valid_restored {node : Node} (h : node.Valid) (hgrid : ∀ m ∈ node.walk, m.OnGrid) :
    node.restored.Valid := by
  intro m hm
  rw [inPlace_restored.walk_apply] at hm
  obtain ⟨original, horiginal, rfl⟩ := List.mem_map.1 hm
  exact check_restored (h original horiginal) (hgrid original horiginal)

/-! ### Comparison -/

/-- **A restored node is the same as the node** if it is valid and its attributes are on the grid.
Comparison sees neither the order of variants nor the sign of a zero. -/
theorem same_restored {node : Node} (h : node.Valid) (hgrid : ∀ m ∈ node.walk, m.OnGrid) :
    same node.restored node = true := by
  induction node with
  | bool | int | enumeration | enumArray | pointer => simp [restored, same]
  | fixed name min max precision =>
      obtain ⟨hmin, hmax, hprecision⟩ := hgrid _ (mem_walk_self _)
      simp only [restored, same, beq_self_eq_true, Bool.true_and, Bool.and_eq_true]
      exact ⟨⟨hmin, hmax⟩, hprecision⟩
  | optional name inner ih =>
      have hinner := ih (valid_optional_iff.1 h) fun m hm =>
        hgrid m (mem_walk.2 (.inr ⟨inner, List.mem_singleton_self _, hm⟩))
      simp [restored, same, hinner]
  | array name minLength maxLength item ih =>
      have hitem := ih (valid_array_iff.1 h).2 fun m hm =>
        hgrid m (mem_walk.2 (.inr ⟨item, List.mem_singleton_self _, hm⟩))
      simp [restored, same, hitem]
  | object name fields ih =>
      have hfields := sameList_map fun field hfield =>
        ih field hfield ((valid_object_iff.1 h).2 field hfield) fun m hm =>
          hgrid m (mem_walk.2 (.inr ⟨field, hfield, hm⟩))
      simp [restored, same, restoredList_eq, hfields]
  | union name discriminator variants ih =>
      obtain ⟨⟨-, hnodup⟩, hperm, hvariants⟩ := valid_union_iff.1 h
      have hlength : discriminator.options.length = variants.length := by
        rw [← hperm.length_eq, Entries.keys, List.length_map]
      have hsame : sameVariants
          (discriminator.options.map fun option => (option, restoredAt variants option))
          variants = true := by
        rw [sameVariants_iff, List.forall_mem_map]
        intro option hoption
        obtain ⟨⟨key, fields⟩, hentry, rfl⟩ := List.mem_map.1 (hperm.mem_iff.2 hoption)
        have hget := (Entries.get?_eq_some_iff (hperm.nodup_iff.2 hnodup)).2 hentry
        refine ⟨fields, hget, ?_⟩
        rw [restoredAt_eq, hget, Option.getD_some]
        refine sameList_map fun field hfield => ?_
        refine ih _ hentry field hfield ((hvariants _ hentry).2 field hfield) fun m hm => ?_
        refine hgrid m (mem_walk.2 (.inr ⟨field, mem_children_union.2 ⟨key, hoption, ?_⟩, hm⟩))
        rw [hget]
        exact hfield
      simp [restored, same, hsame, hlength]

end Node

end FieldGrammar
