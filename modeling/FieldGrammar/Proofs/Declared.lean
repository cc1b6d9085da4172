import Mathlib
import FieldGrammar.Proofs.Projection
import FieldGrammar.Proofs.Trees
import FieldGrammar.Proofs.Writing

/-!
# What writing depends on

Undeclared entries, the order of entries and the difference between a missing and a null entry
have no influence on what is written.  The general statement is about a treatment of leaves that
keeps the bits of the leaves that are met: projecting with such a treatment keeps the bits of the
whole value.  Leaving leaves alone is one such treatment, and moving numbers to their grid is
another, on data whose step numbers the grid gives back.

## Main statements

* `Packing.writeNode_projectNode` — a projection is written like the value
* `Packing.leafWritable_of_mem_leavesOf` — what is written has writable leaves
* `Packing.keepsBits_normalLeaf` — when moving to the grid keeps the bits of a leaf
-/

namespace FieldGrammar

namespace Packing

/-! ### Traversals and fields -/

/-- Fields are written alike when their entries are. -/
theorem writeFields_congr {follow : WritePointer} {fields : List Node} {a b : Entries Value}
    (h : ∀ field ∈ fields, writeNode follow field (Entries.getOrNull a field.name) =
      writeNode follow field (Entries.getOrNull b field.name)) :
    writeFields follow fields a = writeFields follow fields b := by
  induction fields with
  | nil => rfl
  | cons field rest ih =>
      rw [writeFields, writeFields, h field List.mem_cons_self,
        ih fun f hf => h f (List.mem_cons_of_mem _ hf)]

/-! ### Projections -/

/-- Treating the value of a leaf does not change the bits that it is written as.  Two treatments are
of interest: leaving it alone, and moving it to its grid. -/
def KeepsBits (leaf : Node → Value → Value) (found : Node × Value) : Prop :=
  ∀ follow : WritePointer,
    writeNode follow found.1 (leaf found.1 found.2) = writeNode follow found.1 found.2

section

variable {leaf : Node → Value → Value} {followW : WritePointer} {followP : ProjectPointer}
  {followL : PointerLeaves}

/-- The fields of a projected object are written like those of the object. -/
theorem writeFields_projectFields {fields : List Node} (hnames : (fields.map Node.name).Nodup)
    {entries : Entries Value}
    (h : ∀ field ∈ fields,
      writeNode followW field
          (projectNode leaf followP field (Entries.getOrNull entries field.name)) =
        writeNode followW field (Entries.getOrNull entries field.name)) :
    writeFields followW fields (projectFields leaf followP fields entries) =
      writeFields followW fields entries := by
  refine writeFields_congr fun field hfield => ?_
  rw [← h field hfield]
  conv_lhs => rw [Entries.getOrNull, get?_projectFields hnames entries hfield, Option.getD_some]

/-- The fields of a variant are written alike from a projected union, also a field that has the
name of the discriminator: it sees the text of the option in both. -/
theorem writeFields_projectUnion (key : String) {fields : List Node}
    (hnames : (fields.map Node.name).Nodup) {entries : Entries Value}
    (h : ∀ field ∈ fields,
      writeNode followW field
          (projectNode leaf followP field (Entries.getOrNull entries field.name)) =
        writeNode followW field (Entries.getOrNull entries field.name)) :
    writeFields followW fields ((key, Entries.getOrNull entries key) ::
        (projectFields leaf followP fields entries).filter fun pair => pair.1 ≠ key) =
      writeFields followW fields entries := by
  refine writeFields_congr fun field hfield => ?_
  by_cases hkey : key = field.name
  · subst hkey
    rw [Entries.getOrNull_cons_self]
  · rw [← h field hfield]
    conv_lhs => rw [Entries.getOrNull_cons_of_ne hkey, Entries.getOrNull,
      Entries.get?_filter_ne (Ne.symm hkey), get?_projectFields hnames entries hfield,
      Option.getD_some]

/-- A union whose chosen variant is written alike is written alike: its projection chooses the same
variant.  The option is entered before the fields, as in reading, and stays what it was. -/
theorem writeNode_projectUnion {name : String} {discriminator : Enumeration}
    {variants : Entries (List Node)} {entries : Entries Value}
    (hvariant : ∀ option,
      Entries.getOrNull entries discriminator.name = .string option →
        ((((Entries.get? variants option).getD []).map Node.name).Nodup ∧
          ∀ field ∈ (Entries.get? variants option).getD [],
            writeNode followW field
                (projectNode leaf followP field (Entries.getOrNull entries field.name)) =
              writeNode followW field (Entries.getOrNull entries field.name))) :
    writeNode followW (.union name discriminator variants)
        (projectNode leaf followP (.union name discriminator variants) (.object entries)) =
      writeNode followW (.union name discriminator variants) (.object entries) := by
  cases hoption : writeOption discriminator (Entries.getOrNull entries discriminator.name) with
  | error e =>
      simp only [projectNode, writeNode, Value.asObject?]
      rw [hoption, Entries.getOrNull_cons_self, hoption]
      rfl
  | ok found =>
      obtain ⟨option, head⟩ := found
      obtain ⟨hchosen, -⟩ := writeOption_eq_ok_iff.1 hoption
      obtain ⟨hnames, hfields⟩ := hvariant option hchosen
      have hwrite := writeFields_projectUnion discriminator.name hnames hfields
      rw [hchosen] at hwrite hoption
      rw [projectNode_union_of_string hchosen]
      simp only [writeNode, Value.asObject?]
      rw [hchosen, Entries.getOrNull_cons_self, hoption, ok_bind, ok_bind]
      dsimp only
      rw [writeVariant_eq, writeVariant_eq, hwrite]

/-- **A projection is written like the value**, if the treatment of leaves keeps the bits of the
leaves that are met and the same holds at pointers. -/
theorem writeNode_projectNode (hleaf : ∀ node, KeepsShape (leaf node))
    (hshape : ∀ name target, KeepsShape (followP name target))
    (hfollow : ∀ name target value, (∀ found ∈ followL name target value, KeepsBits leaf found) →
      followW name target (followP name target value) = followW name target value)
    {node : Node} (hvalid : node.Valid) {value : Value}
    (hleaves : ∀ found ∈ leavesOf followL node value, KeepsBits leaf found) :
    writeNode followW node (projectNode leaf followP node value) =
      writeNode followW node value := by
  induction node generalizing value with
  -- At a leaf nothing is left to show: it is the leaf that the hypothesis is about.
  | bool | int | fixed | enumeration | enumArray =>
      exact hleaves _ List.mem_cons_self followW
  | optional name inner ih =>
      rw [Node.valid_optional_iff] at hvalid
      have hisNull := (keepsShape_projectNode hleaf hshape (.optional name inner)).isNull value
      rw [writeNode, writeNode, hisNull, projectNode]
      rw [leavesOf] at hleaves
      cases hnull : value.isNull with
      | true => rfl
      | false =>
          rw [hnull] at hleaves
          simp only [Bool.false_eq_true, if_false] at hleaves ⊢
          rw [ih hvalid hleaves]
  | array name minLength maxLength item ih =>
      obtain ⟨-, hitem⟩ := Node.valid_array_iff.1 hvalid
      cases value with
      | array items =>
          simp only [leavesOf, Value.asArray?, List.mem_flatMap] at hleaves
          have hitems : (items.map fun element => projectNode leaf followP item element).mapM
              (fun element => writeNode followW item element) =
                items.mapM fun element => writeNode followW item element :=
            List.mapM_map.trans (mapM_congr fun element helement =>
              ih hitem fun found hfound => hleaves found ⟨element, helement, hfound⟩)
          simp only [projectNode, writeNode, Value.asArray?, List.length_map, hitems]
      -- A value of another kind is left alone, and refused as before.
      | null | bool | int | fixed | string | object => rfl
  | object name fields ih =>
      obtain ⟨hnames, hfields⟩ := Node.valid_object_iff.1 hvalid
      cases value with
      | object entries =>
          rw [leavesOf, Value.asObject?] at hleaves
          have hwrite := @writeFields_projectFields leaf followW followP fields hnames entries
            fun field hfield => ih field hfield (hfields field hfield) fun found hfound =>
              hleaves found (mem_fieldLeaves.2 ⟨field, hfield, hfound⟩)
          simp only [projectNode, writeNode, Value.asObject?, hwrite]
      | null | bool | int | fixed | string | array => rfl
  | union name discriminator variants ih =>
      obtain ⟨-, -, hvariants⟩ := Node.valid_union_iff.1 hvalid
      cases value with
      | object entries =>
          refine writeNode_projectUnion fun option hchosen => ?_
          rw [leavesOf_union_of_string hchosen] at hleaves
          generalize hfields : (Entries.get? variants option).getD [] = fields at hleaves ⊢
          cases hget : Entries.get? variants option with
          | none =>
              rw [hget] at hfields
              subst hfields
              simp
          | some found =>
              rw [hget, Option.getD_some] at hfields
              subst hfields
              have hentry := Entries.mem_of_get?_eq_some hget
              obtain ⟨hnames, hvalid⟩ := hvariants _ hentry
              refine ⟨hnames, fun field hfield => ih _ hentry field hfield (hvalid field hfield) ?_⟩
              exact fun found hfound => hleaves found (mem_fieldLeaves.2 ⟨field, hfield, hfound⟩)
      | null | bool | int | fixed | string | array => rfl
  | pointer name target => exact hfollow name target value hleaves

end

/-- Projections are written alike at pointers, however many are still to be followed. -/
theorem followWrite_followProject {leaf : Node → Value → Value}
    (hleaf : ∀ node, KeepsShape (leaf node)) {scope : List Node}
    (hscope : ∀ field ∈ scope, field.Valid) (limit : Nat) {budget : Nat} {name target : String}
    {value : Value}
    (h : ∀ found ∈ followLeaves scope budget name target value, KeepsBits leaf found) :
    followWrite scope limit budget name target (followProject leaf scope budget name target value) =
      followWrite scope limit budget name target value := by
  induction budget generalizing name target value with
  | zero => rfl
  | succ budget ih =>
      rw [followWrite, followWrite, followProject]
      rw [followLeaves] at h
      cases hnode : resolveTarget scope target with
      | none => rfl
      | some node =>
          rw [hnode] at h
          exact writeNode_projectNode hleaf (keepsShape_followProject hleaf scope budget)
            (fun _ _ _ => ih) (valid_of_resolveTarget hscope hnode) h

/-! ### Leaves that can be written -/

/-- The value at a leaf can be written, in the same bits wherever the leaf stands.  Leaves do not
look at pointers. -/
def LeafWritable (found : Node × Value) : Prop :=
  ∃ bits, ∀ follow : WritePointer, writeNode follow found.1 found.2 = .ok bits

section

variable {followW : WritePointer} {followL : PointerLeaves}

theorem leafWritable_of_mem_fieldLeaves {fields : List Node} {entries : Entries Value} {bits : Bits}
    (hfields : ∀ field ∈ fields, ∀ value bits, writeNode followW field value = .ok bits →
      ∀ found ∈ leavesOf followL field value, LeafWritable found)
    (h : writeFields followW fields entries = .ok bits) {found : Node × Value}
    (hfound : found ∈ fieldLeaves followL fields entries) : LeafWritable found := by
  obtain ⟨parts, hparts, -⟩ := writeFields_eq_ok_iff.1 h
  obtain ⟨field, hfield, hmem⟩ := mem_fieldLeaves.1 hfound
  obtain ⟨i, hi, rfl⟩ := List.getElem_of_mem hfield
  have hwrite := hparts.get hi (hparts.length_eq ▸ hi)
  exact hfields _ hfield _ _ hwrite found hmem

/-- **What is written has writable leaves.**  A condition on numbers need only be met by the values
that are visited, and this is how one is found to be among them. -/
theorem leafWritable_of_mem_leavesOf
    (hfollow : ∀ name target value bits, followW name target value = .ok bits →
      ∀ found ∈ followL name target value, LeafWritable found)
    {node : Node} {value : Value} {bits : Bits} (h : writeNode followW node value = .ok bits) :
    ∀ found ∈ leavesOf followL node value, LeafWritable found := by
  induction node generalizing value bits with
  | bool name =>
      intro found hfound
      rw [leavesOf, List.mem_singleton] at hfound
      subst hfound
      exact ⟨bits, fun follow => writeNode_bool_eq_ok_iff.2 (writeNode_bool_eq_ok_iff.1 h)⟩
  | int name min max =>
      intro found hfound
      rw [leavesOf, List.mem_singleton] at hfound
      subst hfound
      exact ⟨bits, fun follow => writeNode_int_eq_ok_iff.2 (writeNode_int_eq_ok_iff.1 h)⟩
  | fixed name min max precision =>
      intro found hfound
      rw [leavesOf, List.mem_singleton] at hfound
      subst hfound
      exact ⟨bits, fun follow => writeNode_fixed_eq_ok_iff.2 (writeNode_fixed_eq_ok_iff.1 h)⟩
  | enumeration e =>
      intro found hfound
      rw [leavesOf, List.mem_singleton] at hfound
      subst hfound
      exact ⟨bits, fun follow =>
        writeNode_enumeration_eq_ok_iff.2 (writeNode_enumeration_eq_ok_iff.1 h)⟩
  | enumArray name minLength maxLength e =>
      intro found hfound
      rw [leavesOf, List.mem_singleton] at hfound
      subst hfound
      exact ⟨bits, fun follow =>
        writeNode_enumArray_eq_ok_iff.2 (writeNode_enumArray_eq_ok_iff.1 h)⟩
  | optional name inner ih =>
      rw [leavesOf]
      rcases writeNode_optional_eq_ok_iff.1 h with ⟨rfl, rfl⟩ | ⟨hnull, rest, hrest, rfl⟩
      · simp [Value.isNull]
      · rw [if_neg fun hisnull => hnull (Value.isNull_iff.1 hisnull)]
        exact ih hrest
  | array name minLength maxLength item ih =>
      obtain ⟨items, length, parts, rfl, -, hparts, rfl⟩ := writeNode_array_eq_ok_iff.1 h
      intro found hfound
      simp only [leavesOf, Value.asArray?, List.mem_flatMap] at hfound
      obtain ⟨element, helement, hmem⟩ := hfound
      obtain ⟨i, hi, rfl⟩ := List.getElem_of_mem helement
      exact ih (hparts.get hi (hparts.length_eq ▸ hi)) found hmem
  | object name fields ih =>
      obtain ⟨entries, rfl, hwrite⟩ := writeNode_object_eq_ok_iff.1 h
      intro found hfound
      rw [leavesOf, Value.asObject?] at hfound
      exact leafWritable_of_mem_fieldLeaves (fun field hfield _ _ => ih field hfield) hwrite hfound
  | union name discriminator variants ih =>
      obtain ⟨entries, option, head, rest, rfl, hhead, hrest, rfl⟩ :=
        writeNode_union_eq_ok_iff.1 h
      obtain ⟨hchosen, -⟩ := writeOption_eq_ok_iff.1 hhead
      intro found hfound
      rw [leavesOf_union_of_string hchosen] at hfound
      have hfields := Entries.forall_mem_getD ih option
      exact leafWritable_of_mem_fieldLeaves (fun field hfield _ _ => hfields field hfield) hrest
        hfound
  | pointer name target => exact hfollow name target value bits h

end

theorem leafWritable_of_mem_followLeaves {scope : List Node} (limit : Nat) {budget : Nat}
    {name target : String} {value : Value} {bits : Bits}
    (h : followWrite scope limit budget name target value = .ok bits) :
    ∀ found ∈ followLeaves scope budget name target value, LeafWritable found := by
  induction budget generalizing name target value bits with
  | zero =>
      intro found hfound
      cases hfound
  | succ budget ih =>
      rw [followWrite] at h
      rw [followLeaves]
      cases hnode : resolveTarget scope target with
      | none =>
          intro found hfound
          cases hfound
      | some node =>
          rw [hnode] at h
          exact leafWritable_of_mem_leavesOf (fun _ _ _ _ => ih) h

/-! ### Numbers on their grid -/

/-- The step number of the value at a fixed-point leaf is given back by the value at that step,
which is finite.  Other leaves satisfy this trivially. -/
def StepStable : Node × Value → Prop
  | (.fixed _ _ _ precision, value) => ∀ x, value.asFixed? = some x →
    let grid := Grid.ofPrecision precision
    let steps := grid.stepsOf x
    grid.stepsOf (grid.valueOf steps) = steps ∧ (grid.valueOf steps).isFinite = true
  | _ => True

/-- Moving a number to its grid keeps its bits if the grid gives the step number back. -/
theorem keepsBits_normalLeaf {found : Node × Value} (hwritable : LeafWritable found)
    (hstable : StepStable found) : KeepsBits normalLeaf found := by
  obtain ⟨node, value⟩ := found
  obtain ⟨bits, hbits⟩ := hwritable
  intro follow
  have hwrite := hbits follow
  cases node with
  | int name min max =>
      obtain ⟨n, hn, hrest⟩ := writeNode_int_eq_ok_iff.1 hwrite
      dsimp only at hwrite ⊢
      rw [hwrite, normalLeaf, hn]
      exact writeNode_int_eq_ok_iff.2 ⟨n, rfl, hrest⟩
  | fixed name min max precision =>
      obtain ⟨x, hx, -, hrest⟩ := writeNode_fixed_eq_ok_iff.1 hwrite
      obtain ⟨hsteps, hfinite⟩ := hstable x hx
      dsimp only at hwrite ⊢
      rw [hwrite, normalLeaf, hx]
      refine writeNode_fixed_eq_ok_iff.2 ⟨_, rfl, hfinite, ?_⟩
      rw [hsteps]
      exact hrest
  | bool | enumeration | optional | array | enumArray | object | union | pointer => rfl

end Packing

end FieldGrammar
