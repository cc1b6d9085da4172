import Mathlib
import FieldGrammar.Proofs.Declared
import FieldGrammar.Proofs.Grids
import FieldGrammar.Proofs.ReadBack
import FieldGrammar.Proofs.Sameness

/-!
# Packing and unpacking data

Data that can be packed against a valid schema are unpacked in normal form.  What is packed
depends on the declared part of the data alone, and the normal form packs to the same octets
whenever the grids of the fixed-point fields give the step numbers in the data back.

Values are compared as numbers, so the result being the same as the normal form says a little
more than that it is the normal form: there is no NaN in it.  No step of the grid of a valid
fixed-point field is one.

## Main statements

* `Packing.same_projectNode` — a normal form is the same as itself
* `writeData_projectData` — projected data are written alike
* `unpackData_packData` — the round trip
-/

namespace FieldGrammar

namespace Packing

/-! ### Normal forms without NaN -/

section

variable {followW : WritePointer} {followN : ProjectPointer}

/-- The projected fields of an object are the same as themselves if each field that can be
written is. -/
theorem same_projectFields {fields : List Node} {entries : Entries Value} {bits : Bits}
    (hfields : ∀ field ∈ fields, ∀ value bits, writeNode followW field value = .ok bits →
      Value.same (projectNode normalLeaf followN field value)
        (projectNode normalLeaf followN field value) = true)
    (h : writeFields followW fields entries = .ok bits) :
    ∀ entry ∈ projectFields normalLeaf followN fields entries,
      Value.same entry.2 entry.2 = true := by
  obtain ⟨parts, hparts, -⟩ := writeFields_eq_ok_iff.1 h
  intro entry hentry
  rw [projectFields_eq, List.mem_map] at hentry
  obtain ⟨field, hfield, rfl⟩ := hentry
  obtain ⟨i, hi, rfl⟩ := List.getElem_of_mem hfield
  exact hfields _ hfield _ _ (hparts.get hi (hparts.length_eq ▸ hi))

/-- **The normal form of a value that can be written is the same as itself.**  A number of a grid is
no NaN, which is the one value that is not. -/
theorem same_projectNode
    (hfollow : ∀ name target value bits, followW name target value = .ok bits →
      Value.same (followN name target value) (followN name target value) = true)
    {node : Node} (hvalid : node.Valid) {value : Value} {bits : Bits}
    (h : writeNode followW node value = .ok bits) :
    Value.same (projectNode normalLeaf followN node value)
      (projectNode normalLeaf followN node value) = true := by
  induction node generalizing value bits with
  | bool name =>
      obtain ⟨b, rfl, -⟩ := writeNode_bool_eq_ok_iff.1 h
      exact beq_self_eq_true b
  | int name min max =>
      obtain ⟨n, hn, -⟩ := writeNode_int_eq_ok_iff.1 h
      rw [projectNode, normalLeaf, hn]
      exact beq_self_eq_true n
  | fixed name min max precision =>
      obtain ⟨x, hx, -⟩ := writeNode_fixed_eq_ok_iff.1 h
      obtain ⟨⟨-, -, hfinite⟩, -, hpositive⟩ := Node.valid_fixed_iff.1 hvalid
      rw [projectNode, normalLeaf, hx]
      exact Binary64.beq_self (Grid.isNaN_valueOf hfinite hpositive _)
  | enumeration e =>
      obtain ⟨option, hoption⟩ := writeNode_enumeration_eq_ok_iff.1 h
      obtain ⟨rfl, -⟩ := writeOption_eq_ok_iff.1 hoption
      exact beq_self_eq_true option
  | optional name inner ih =>
      rw [projectNode]
      rcases writeNode_optional_eq_ok_iff.1 h with ⟨rfl, -⟩ | ⟨hnull, rest, hrest, -⟩
      · rfl
      · rw [if_neg fun hisnull => hnull (Value.isNull_iff.1 hisnull)]
        exact ih (Node.valid_optional_iff.1 hvalid) hrest
  | array name minLength maxLength item ih =>
      obtain ⟨items, length, parts, rfl, -, hparts, -⟩ := writeNode_array_eq_ok_iff.1 h
      refine Value.same_array_self fun element helement => ?_
      obtain ⟨element, hmem, rfl⟩ := List.mem_map.1 helement
      obtain ⟨i, hi, rfl⟩ := List.getElem_of_mem hmem
      exact ih (Node.valid_array_iff.1 hvalid).2 (hparts.get hi (hparts.length_eq ▸ hi))
  | enumArray name minLength maxLength e =>
      obtain ⟨length, pairs, rfl, -⟩ := writeNode_enumArray_eq_ok_iff.1 h
      refine Value.same_array_self fun element helement => ?_
      obtain ⟨option, -, rfl⟩ := List.mem_map.1 helement
      exact beq_self_eq_true option
  | object name fields ih =>
      obtain ⟨entries, rfl, hwrite⟩ := writeNode_object_eq_ok_iff.1 h
      obtain ⟨hnames, hfields⟩ := Node.valid_object_iff.1 hvalid
      refine Value.same_object_self (by rwa [keys_projectFields]) ?_
      exact same_projectFields (fun field hfield _ _ => ih field hfield (hfields field hfield))
        hwrite
  | union name discriminator variants ih =>
      obtain ⟨entries, option, head, rest, rfl, hhead, hrest, -⟩ := writeNode_union_eq_ok_iff.1 h
      obtain ⟨hchosen, -⟩ := writeOption_eq_ok_iff.1 hhead
      obtain ⟨-, -, hvariants⟩ := Node.valid_union_iff.1 hvalid
      rw [projectNode_union_of_string hchosen]
      generalize hfields : (Entries.get? variants option).getD [] = fields at hrest ⊢
      -- The fields of the chosen variant, or none if the option has no variant.
      have hvariant : (fields.map Node.name).Nodup ∧ ∀ field ∈ fields, ∀ value bits,
          writeNode followW field value = .ok bits →
            Value.same (projectNode normalLeaf followN field value)
              (projectNode normalLeaf followN field value) = true := by
        subst hfields
        cases hget : Entries.get? variants option with
        | none => simp
        | some found =>
            have hentry := Entries.mem_of_get?_eq_some hget
            obtain ⟨hnames, hvalid⟩ := hvariants _ hentry
            exact ⟨hnames, fun field hfield _ _ => ih _ hentry field hfield (hvalid field hfield)⟩
      obtain ⟨hnames, hread⟩ := hvariant
      rw [← @keys_projectFields normalLeaf followN fields entries] at hnames
      refine Value.same_object_self ?_ (List.forall_mem_cons.2 ⟨beq_self_eq_true option, ?_⟩)
      -- A field with the discriminator's name has been filtered out, so the option's entry is the
      -- only one.
      · rw [Entries.keys_cons, List.nodup_cons]
        refine ⟨?_, hnames.sublist (List.filter_sublist.map Prod.fst)⟩
        simp [Entries.keys]
      · exact fun entry hentry =>
          same_projectFields hread hrest entry (List.mem_of_mem_filter hentry)
  | pointer name target => exact hfollow name target value bits h

end

/-- Normal forms at pointers are the same as themselves. -/
theorem same_followProject {scope : List Node} (hscope : ∀ field ∈ scope, field.Valid)
    (limit : Nat) {budget : Nat} {name target : String} {value : Value} {bits : Bits}
    (h : followWrite scope limit budget name target value = .ok bits) :
    Value.same (followProject normalLeaf scope budget name target value)
      (followProject normalLeaf scope budget name target value) = true := by
  induction budget generalizing name target value bits with
  | zero =>
      rw [followWrite] at h
      split at h <;> cases h
  | succ budget ih =>
      rw [followWrite] at h
      cases hnode : resolveTarget scope target with
      | none =>
          rw [hnode] at h
          cases h
      | some node =>
          rw [hnode] at h
          have hsame := same_projectNode (fun _ _ _ _ => ih) (valid_of_resolveTarget hscope hnode) h
          rw [followProject, hnode]
          exact hsame

end Packing

/-! ### Whole data -/

section

variable {fields : List Node} {data : Value} {options : CodecOptions} {bytes : List UInt8}

/-- Packed data are written bits. -/
theorem packData_eq_ok_iff :
    packData fields data options = .ok bytes ↔
      ∃ bits, Packing.writeData fields data options.pointerDepth = .ok bits ∧
        bytes = Bits.toBytes bits := by
  rw [packData, bind_eq_ok_iff]
  simp only [pure_eq_ok, Except.ok.injEq, eq_comm]

/-- Normal forms of data that can be written are the same as themselves. -/
theorem same_normalData (hnames : (fields.map Node.name).Nodup)
    (hfields : ∀ field ∈ fields, field.Valid) {bits : Bits}
    (h : Packing.writeData fields data options.pointerDepth = .ok bits) :
    Value.same (normalData fields data options) (normalData fields data options) = true := by
  rw [Packing.writeData] at h
  split at h
  · cases h
  · next entries hentries =>
    rw [normalData, projectData, hentries]
    refine Value.same_object_self (by rwa [Packing.keys_projectFields]) ?_
    refine Packing.same_projectFields (fun field hfield _ _ => ?_) h
    exact Packing.same_projectNode
      (fun _ _ _ _ => Packing.same_followProject hfields options.pointerDepth)
      (hfields field hfield)

/-- Projected data are written alike if the treatment of leaves keeps their bits.  The projection to
the declared part keeps the leaves as they are, and the normal form moves numbers to their grid. -/
theorem writeData_projectData {leaf : Node → Value → Value}
    (hleaf : ∀ node, Packing.KeepsShape (leaf node)) (hnames : (fields.map Node.name).Nodup)
    (hfields : ∀ field ∈ fields, field.Valid)
    (hkeeps : ∀ found ∈ dataLeaves fields data options, Packing.KeepsBits leaf found) :
    Packing.writeData fields (projectData leaf fields data options.pointerDepth)
        options.pointerDepth =
      Packing.writeData fields data options.pointerDepth := by
  cases data with
  | object entries =>
      refine Packing.writeFields_projectFields hnames fun field hfield => ?_
      refine Packing.writeNode_projectNode hleaf
        (Packing.keepsShape_followProject hleaf fields options.pointerDepth)
        (fun _ _ _ => Packing.followWrite_followProject hleaf hfields options.pointerDepth)
        (hfields field hfield) fun found hfound => hkeeps found ?_
      exact Packing.mem_fieldLeaves.2 ⟨field, hfield, hfound⟩
  | null | bool | int | fixed | string | array => rfl

/-- What can be written has writable leaves. -/
theorem leafWritable_of_mem_dataLeaves {bits : Bits}
    (h : Packing.writeData fields data options.pointerDepth = .ok bits) :
    ∀ found ∈ dataLeaves fields data options, Packing.LeafWritable found := by
  rw [Packing.writeData] at h
  split at h
  · cases h
  · next entries hentries =>
    intro found hfound
    rw [dataLeaves, hentries] at hfound
    refine Packing.leafWritable_of_mem_fieldLeaves (fun field _ _ _ hwrite => ?_) h hfound
    exact Packing.leafWritable_of_mem_leavesOf
      (fun _ _ _ _ => Packing.leafWritable_of_mem_followLeaves options.pointerDepth) hwrite

/-- The declared part of data is packed like the data. -/
theorem packData_declaredData (hnames : (fields.map Node.name).Nodup)
    (hfields : ∀ field ∈ fields, field.Valid) :
    packData fields (declaredData fields data options) options =
      packData fields data options := by
  rw [packData, packData, declaredData, writeData_projectData (fun _ => Packing.keepsShape_id)
    hnames hfields fun _ _ _ => rfl]

end

/-- Undeclared entries and the order of entries are no part of what is declared. -/
theorem declaredData_of_getOrNull {fields : List Node} {a b : Entries Value}
    (options : CodecOptions) (h : ∀ field ∈ fields,
      Entries.getOrNull a field.name = Entries.getOrNull b field.name) :
    declaredData fields (.object a) options = declaredData fields (.object b) options := by
  simp only [declaredData, projectData, Value.asObject?, Packing.projectFields_eq]
  congr 1
  exact List.map_congr_left fun field hfield => by rw [h field hfield]

/-- **Unpacking packed data gives their normal form, and nothing but the declared part of the data
matters.**  Data with the same declared part pack to the same octets and have the same normal form,
and so does the normal form itself when the grids give the step numbers in the data back.  This last
condition is about the numbers at hand: a precision may be so fine, or a number so great, that a
step has no number of its own. -/
theorem unpackData_packData {name : String} {fields : List Node} {data : Value}
    {options : CodecOptions} {bytes : List UInt8}
    (hvalid : Schema.validate ⟨name, fields⟩ = .ok ())
    (hpack : packData fields data options = .ok bytes) :
    (∃ value, unpackData fields bytes options = .ok value ∧
      value = normalData fields data options ∧
      Value.same value (normalData fields data options) = true) ∧
    (∀ other, declaredData fields other options = declaredData fields data options →
      packData fields other options = .ok bytes ∧
        normalData fields other options = normalData fields data options) ∧
    ((∀ found ∈ dataLeaves fields data options, Packing.StepStable found) →
      packData fields (normalData fields data options) options = .ok bytes) := by
  obtain ⟨hnames, hfields⟩ := Schema.validate_eq_ok_iff.1 hvalid
  -- Reading sees the octets only, so data of the same octets have the same normal form.
  have hunpack : ∀ other, packData fields other options = .ok bytes →
      unpackData fields bytes options = .ok (normalData fields other options) := by
    intro other hother
    obtain ⟨bits, hbits, rfl⟩ := packData_eq_ok_iff.1 hother
    exact Packing.unpackData_toBytes hnames hfields hbits
  obtain ⟨bits, hbits, hbytes⟩ := packData_eq_ok_iff.1 hpack
  refine ⟨⟨_, hunpack data hpack, rfl, same_normalData hnames hfields hbits⟩, ?_, ?_⟩
  · intro other hdeclared
    have hother : packData fields other options = .ok bytes := by
      rw [← packData_declaredData hnames hfields, hdeclared, packData_declaredData hnames hfields,
        hpack]
    refine ⟨hother, ?_⟩
    have heq := (hunpack other hother).symm.trans (hunpack data hpack)
    exact Except.ok.inj heq
  · intro hstable
    have hkeeps : ∀ found ∈ dataLeaves fields data options,
        Packing.KeepsBits Packing.normalLeaf found := fun found hfound =>
      Packing.keepsBits_normalLeaf (leafWritable_of_mem_dataLeaves hbits found hfound)
        (hstable found hfound)
    refine packData_eq_ok_iff.2 ⟨bits, ?_, hbytes⟩
    rw [normalData, writeData_projectData Packing.keepsShape_normalLeaf hnames hfields hkeeps,
      hbits]

/-- Shapes that are leaves or link to another shape.  A leaf has a field with the name of the
discriminator. -/
def linkedShapes : List Node :=
  [.union "shape" ⟨"kind", ["leaf", "link"]⟩
    [("link", [.optional "next" (.pointer "next" "shape")]),
      ("leaf", [.enumeration ⟨"kind", ["leaf"]⟩, .fixed "x" 0.0 10.0 0.25])]]

/-- A shape that links to a leaf, with an undeclared entry and a number between two steps. -/
def linkedLeaf : Value :=
  .object
    [("other", .null),
      ("shape", .object
        [("next", .object [("x", .fixed 1.3), ("kind", .string "leaf")]),
          ("kind", .string "link")])]

theorem unpackData_packData_linkedLeaf :
    Schema.validate ⟨"figure", linkedShapes⟩ = .ok () ∧
    packData linkedShapes linkedLeaf {} = .ok [194, 128] ∧
    unpackData linkedShapes [194, 128] {} = .ok (normalData linkedShapes linkedLeaf {}) ∧
    packData linkedShapes (normalData linkedShapes linkedLeaf {}) {} = .ok [194, 128] := by
  have hvalid : Schema.validate ⟨"figure", linkedShapes⟩ = .ok () := rfl
  have hpack : packData linkedShapes linkedLeaf {} = .ok [194, 128] :=
    eq_ok_of_toOption (by decide +kernel)
  obtain ⟨⟨value, hunpack, rfl, -⟩, -, hagain⟩ := unpackData_packData hvalid hpack
  refine ⟨hvalid, hpack, hunpack, hagain ?_⟩
  have hleaves : dataLeaves linkedShapes linkedLeaf {} =
      [(.enumeration ⟨"kind", ["leaf"]⟩, .string "leaf"),
        (.fixed "x" 0.0 10.0 0.25, .fixed 1.3)] := rfl
  rw [hleaves]
  refine List.forall_mem_cons.2 ⟨trivial, List.forall_mem_singleton.2 ?_⟩
  intro x hx
  cases hx
  exact ⟨by decide +kernel, by decide +kernel⟩

end FieldGrammar
