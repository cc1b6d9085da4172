import Mathlib
import FieldGrammar.Proofs.DecodedSchemas

/-!
# What the bound on depth does

Decoding does not measure depths.  A schema that was decoded is within the bound because its
description was read against a meta-schema that has no more levels than the bound, and what is
read at a level can be written there.  A bound of zero has the one level of a bound of one.

Where the bound leaves a level to spare, its value has no influence.  Every level but the
innermost offers all kinds, so a description that never arrives at the innermost level is written
alike whatever the number of levels, and the token is decoded alike.

## Main definitions

* `Packing.WrittenAlike` — two nodes write a value to the same bits or with the same error

## Main statements

* `depth_le_of_decodePacked` — how deep a decoded schema is
* `MetaSchema.alikeWhereSpare` — a description that never arrives at the innermost level
* `encodePacked_of_spareDepth` — a token does not depend on spare depth
-/

namespace FieldGrammar

variable {options : CodecOptions} {token : String} {s : Schema}

/-! ### Depths of decoded schemas -/

/-- **A decoded schema is within the bound on depth**, so the bound is no reason to refuse it in
encoding.  A bound of zero lets leaves through, as a bound of one does.  No depth is measured in
decoding: what was read at a level has no more levels than are left there. -/
theorem depth_le_of_decodePacked (h : decodePacked token options = .ok s) :
    (∀ field ∈ s.fields, field.depth ≤ max 1 options.maxDepth) ∧
      (options.maxDepth ≠ 0 → checkDepths options.maxDepth s.fields = .ok ()) := by
  obtain ⟨-, bytes, data, -, hdata, hschema, hvalid, -⟩ := decodePacked_eq_ok_iff.1 h
  obtain ⟨-, hfields⟩ := Schema.validate_eq_ok_iff.1 hvalid
  obtain ⟨hwritten, -⟩ := MetaSchema.normalData_of_unpackData_fields hdata
  obtain ⟨table, hdescribes⟩ := Rebuild.exists_describesSchema hdata hschema hfields
  rw [hdescribes.eq] at hwritten
  obtain ⟨-, -, hlevels⟩ := MetaSchema.exists_writeData_iff.1 hwritten
  -- What was read can be written at the same level, and only nodes that fit the level can.
  have hdepth : ∀ field ∈ s.fields, field.depth ≤ max 1 options.maxDepth := by
    intro field hfield
    have hle := ((MetaSchema.writtenWhereFits (hfields field hfield) _ _).1
      (hlevels field hfield)).1
    omega
  refine ⟨hdepth, fun hpos => checkDepths_eq_ok_iff.2 fun field hfield => ?_⟩
  have hle := hdepth field hfield
  omega

/-- The marks have the two levels that their bound allows. -/
theorem depth_le_of_decodePacked_marks :
    ∃ schema, decodePacked
        "AQGAAQAgEAMAQBAUAKkYTnKgAEjCc5Y4gAAAJw4DQBgBQAYbR9tYXJrH2tpbmQfYXQfYXMfeB9zYW1lA"
        { maxDepth := 2 } = .ok schema ∧
      (∀ field ∈ schema.fields, field.depth ≤ 2) ∧ checkDepths 2 schema.fields = .ok () := by
  have hencode : encodePacked "m" markFields { maxDepth := 2 } = .ok
      "AQGAAQAgEAMAQBAUAKkYTnKgAEjCc5Y4gAAAJw4DQBgBQAYbR9tYXJrH2tpbmQfYXQfYXMfeB9zYW1lA" :=
    eq_ok_of_toOption (by decide +kernel)
  have hdecode := decodePacked_of_encodePacked hencode
  rw [show Schema.resolvePointers ⟨"m", markFields⟩ = .ok () from rfl, ok_bind] at hdecode
  obtain ⟨hdepth, hcheck⟩ := depth_le_of_decodePacked hdecode
  exact ⟨_, hdecode, hdepth, hcheck (by decide)⟩

/-- Under a bound of zero a schema with a leaf is decoded, which encoding under the same bound
refuses as too deep. -/
theorem exists_decodePacked_deeper_than_zero :
    ∃ schema field depth, decodePacked "AQEAAgAG5j7E" { maxDepth := 0 } = .ok schema ∧
      ¬(∀ field ∈ schema.fields, field.depth ≤ 0) ∧
      encodePacked schema.name schema.fields { maxDepth := 0 } =
        .error (.depthExceeded field depth 0) := by
  obtain ⟨schema, hdecode, hdeeper⟩ := exists_eq_ok_of_toOption
    (show (decodePacked "AQEAAgAG5j7E" { maxDepth := 0 }).toOption.any (fun schema =>
      schema.fields.any (fun field => 0 < field.depth) &&
        match encodePacked schema.name schema.fields { maxDepth := 0 } with
        | .error (.depthExceeded _ _ 0) => true
        | _ => false) = true by decide +kernel)
  rw [Bool.and_eq_true, List.any_eq_true] at hdeeper
  obtain ⟨⟨leaf, hmem, hleaf⟩, hrefused⟩ := hdeeper
  split at hrefused
  · next field depth hencode =>
    refine ⟨schema, field, depth, hdecode, fun hall => ?_, hencode⟩
    exact absurd (hall leaf hmem) (Nat.not_le.2 (of_decide_eq_true hleaf))
  · cases hrefused

/-! ### Spare depth -/

namespace Packing

variable {follow follow' : WritePointer} {fields fields' : List Node} {entries : Entries Value}

/-- The two nodes write the value to the same bits, or refuse it with the same error.  Nothing is
asked of other values. -/
def WrittenAlike (follow follow' : WritePointer) (node node' : Node) (value : Value) : Prop :=
  writeNode follow node value = writeNode follow' node' value

/-- Two fields of one name write their entry alike. -/
def FieldAlike (follow follow' : WritePointer) (entries : Entries Value) (a b : Node) : Prop :=
  a.name = b.name ∧ WrittenAlike follow follow' a b (Entries.getOrNull entries a.name)

theorem writeFields_alike (h : List.Forall₂ (FieldAlike follow follow' entries) fields fields') :
    writeFields follow fields entries = writeFields follow' fields' entries := by
  induction h with
  | nil => rfl
  | cons hfield _ ih =>
      obtain ⟨hname, hwritten⟩ := hfield
      rw [writeFields, writeFields, ih, hwritten, hname]

theorem writtenAlike_array {name : String} {minLength maxLength : UInt32} {item item' : Node}
    {items : List Value} (h : ∀ value ∈ items, WrittenAlike follow follow' item item' value) :
    WrittenAlike follow follow' (.array name minLength maxLength item)
      (.array name minLength maxLength item') (.array items) := by
  rw [WrittenAlike, writeNode, writeNode, Value.asArray?]
  simp only [mapM_congr h]

end Packing

namespace MetaSchema

open Packing Describe

section

variable {follow follow' : WritePointer} {levels levels' : Nat}

/-- Attributes contain no pointer, so they are written alike whatever pointers do. -/
theorem alike_attributes (entries : Entries Value) (kind : Kind) :
    List.Forall₂ (FieldAlike follow follow' entries) (attributes kind) (attributes kind) := by
  refine List.forall₂_same.2 fun field hfield => ⟨rfl, ?_⟩
  cases kind <;> simp only [attributes, List.mem_cons, List.not_mem_nil, or_false] at hfield <;>
    rcases hfield with rfl | rfl | rfl | rfl | rfl <;> rfl

/-- Two levels that both have levels below them write an object of a kind alike if they do so with
what the kind nests. -/
theorem writtenAlike_nodeUnion {kind : Kind} {rest : Entries Value} {name name' : String}
    (h : List.Forall₂ (FieldAlike follow follow' (("kind", .string kind.tag) :: rest))
      (contents (nodeUnion levels) kind) (contents (nodeUnion levels') kind)) :
    WrittenAlike follow follow' (nodeUnion (levels + 1) name) (nodeUnion (levels' + 1) name')
      (.object (("kind", .string kind.tag) :: rest)) := by
  have hfields := writeFields_alike (List.rel_append (alike_attributes _ kind) h)
  have hget : Entries.getOrNull (("kind", .string kind.tag) :: rest) kindName =
      .string kind.tag := rfl
  -- Both levels offer all kinds, so they give the kind the same index.
  obtain ⟨head, hhead⟩ := @exists_writeOption ⟨kindName, Kind.all.map Kind.tag⟩ kind.tag
    (List.mem_map_of_mem kind.mem_all)
  rw [WrittenAlike, nodeUnion, nodeUnion, unionOver, unionOver, writeNode, writeNode,
    Value.asObject?]
  simp only [hget, hhead, ok_bind, writeVariant_eq, get?_variants kind.mem_all, Option.getD_some,
    hfields]

theorem writtenAlike_nodeList {name : String} {field field' : Node} {items : List Value}
    (h : ∀ item ∈ items, WrittenAlike follow follow' field field' item) :
    WrittenAlike follow follow' (nodeList name field) (nodeList name field') (.array items) :=
  writtenAlike_array h

end

/-- The description of the node is written alike at any two levels with more levels below them
than the node is deep. -/
def AlikeWhereSpare (indexOf : String → Value) (n : Node) : Prop :=
  ∀ (follow follow' : WritePointer) (levels levels' : Nat) (name name' : String),
    n.depth ≤ levels → n.depth ≤ levels' →
      WrittenAlike follow follow' (nodeUnion levels name) (nodeUnion levels' name')
        (ofNode indexOf n)

section

variable {indexOf : String → Value}

/-- A node that nests no other needs no more of a level than that it offers all kinds. -/
theorem alikeWhereSpare_leaf {n : Node} (hleaf : n.kind.isContainer = false) :
    AlikeWhereSpare indexOf n := by
  intro follow follow' levels levels' name name' hdepth hdepth'
  have hone := n.one_le_depth
  obtain ⟨levels, rfl⟩ := Nat.exists_eq_succ_of_ne_zero (Nat.ne_of_gt (hone.trans hdepth))
  obtain ⟨levels', rfl⟩ := Nat.exists_eq_succ_of_ne_zero (Nat.ne_of_gt (hone.trans hdepth'))
  cases n with
  | bool | int | fixed | enumeration | enumArray | pointer => exact writtenAlike_nodeUnion .nil
  | optional | array | object | union => cases hleaf

/-- A node is written alike at two levels if what it nests is, one level further down.  Its own
attributes are described by the same fields at every level. -/
theorem AlikeWhereSpare.of_children {n : Node}
    (step : ∀ (follow follow' : WritePointer) (levels levels' : Nat) (name name' : String),
      (∀ child ∈ n.children, child.depth ≤ levels) →
      (∀ child ∈ n.children, child.depth ≤ levels') →
        WrittenAlike follow follow' (nodeUnion (levels + 1) name) (nodeUnion (levels' + 1) name')
          (ofNode indexOf n)) : AlikeWhereSpare indexOf n := by
  intro follow follow' levels levels' name name' hdepth hdepth'
  have hone := n.one_le_depth
  obtain ⟨levels, rfl⟩ := Nat.exists_eq_succ_of_ne_zero (Nat.ne_of_gt (hone.trans hdepth))
  obtain ⟨levels', rfl⟩ := Nat.exists_eq_succ_of_ne_zero (Nat.ne_of_gt (hone.trans hdepth'))
  have hchild : ∀ bound, n.depth ≤ bound + 1 → ∀ child ∈ n.children, child.depth ≤ bound := by
    intro bound hbound child hmem
    cases bound with
    | zero =>
        have hleaf := Node.depth_le_one_iff.1 hbound
        cases n with
        | bool | int | fixed | enumeration | enumArray | pointer => cases hmem
        | optional | array | object | union => cases hleaf
    | succ bound => exact Node.depth_le_iff_children.1 hbound child hmem
  exact step follow follow' levels levels' name name' (hchild _ hdepth) (hchild _ hdepth')

/-- **A description that never arrives at the innermost level is written alike** whatever the number
of levels.  The kinds offered are the same as long as a level is to spare, and so are their indices.
-/
theorem alikeWhereSpare (n : Node) : AlikeWhereSpare indexOf n := by
  induction n with
  | bool | int | fixed | enumeration | enumArray | pointer => exact alikeWhereSpare_leaf rfl
  | optional own inner ih =>
      refine .of_children fun follow follow' levels levels' name name' hle hle' => ?_
      have hinner := ih follow follow' levels levels' "inner" "inner"
        (hle inner List.mem_cons_self) (hle' inner List.mem_cons_self)
      refine writtenAlike_nodeUnion (.cons ⟨by simp, ?_⟩ .nil)
      rw [name_nodeUnion]
      exact hinner
  | array own minLength maxLength item ih =>
      refine .of_children fun follow follow' levels levels' name name' hle hle' => ?_
      have hitem := ih follow follow' levels levels' "item" "item"
        (hle item List.mem_cons_self) (hle' item List.mem_cons_self)
      refine writtenAlike_nodeUnion (.cons ⟨by simp, ?_⟩ .nil)
      rw [name_nodeUnion]
      exact hitem
  | object own fields ih =>
      refine .of_children fun follow follow' levels levels' name name' hle hle' => ?_
      refine writtenAlike_nodeUnion (.cons ⟨rfl, ?_⟩ .nil)
      show WrittenAlike _ _ _ _ (.array (ofNodes indexOf fields))
      rw [ofNodes_eq]
      refine writtenAlike_nodeList (List.forall_mem_map.2 fun field hfield => ?_)
      exact ih field hfield follow follow' levels levels' _ _ (hle field hfield) (hle' field hfield)
  | union own discriminator variants ih =>
      refine .of_children fun follow follow' levels levels' name name' hle hle' => ?_
      refine writtenAlike_nodeUnion (.cons ⟨rfl, ?_⟩ .nil)
      show WrittenAlike _ _ _ _
        (.array (discriminator.options.map fun option => ofVariant indexOf variants option))
      refine writtenAlike_array (List.forall_mem_map.2 fun option hoption => ?_)
      rw [ofVariant_eq]
      refine writtenAlike_nodeList (List.forall_mem_map.2 fun field hfield => ?_)
      -- Only the fields of options are described, and all of these are children.
      have hchild : field ∈ (Node.union own discriminator variants).children :=
        Node.mem_children_union.2 ⟨option, hoption, hfield⟩
      obtain ⟨entry, hentry, hmem⟩ := Entries.exists_mem_of_mem_getD hfield
      exact ih entry hentry field hmem follow follow' levels levels' _ _ (hle _ hchild)
        (hle' _ hchild)

end

/-- A description is written alike against the meta-schemas of two bounds that both leave a level
to spare. -/
theorem writeData_ofSchema_of_spareDepth {table : StringTable} {fields : List Node} {a b : Nat}
    (hdepth : ∀ field ∈ fields, field.depth < a ∧ field.depth < b) (pointerDepth : Nat) :
    writeData (MetaSchema.fields a) (ofSchema table fields) pointerDepth =
      writeData (MetaSchema.fields b) (ofSchema table fields) pointerDepth := by
  rw [writeData, writeData, ofSchema, Value.asObject?]
  dsimp only
  refine writeFields_alike (.cons ⟨rfl, rfl⟩ (.cons ⟨rfl, ?_⟩ (.cons ⟨rfl, rfl⟩ .nil)))
  show WrittenAlike _ _ _ _ (.array (fields.map (ofNode table.indexValue)))
  refine writtenAlike_nodeList (List.forall_mem_map.2 fun field hfield => ?_)
  obtain ⟨ha, hb⟩ := hdepth field hfield
  exact alikeWhereSpare field _ _ _ _ _ _ (Nat.le_sub_one_of_lt ha) (Nat.le_sub_one_of_lt hb)

end MetaSchema

/-- **A token does not depend on spare depth.**  Two bounds that are greater than the depth of every
field make the same token of a schema, or refuse it with the same error, and a token that they make
is decoded alike under both.  Where a field reaches the bound, its innermost level offers leaf kinds
only, and a kind has another index there. -/
theorem encodePacked_of_spareDepth {name : String} {fields : List Node} {a b : Nat}
    (ha : a ≤ 7) (hb : b ≤ 7) (hdepth : ∀ field ∈ fields, field.depth < a ∧ field.depth < b) :
    encodePacked name fields (options.withMaxDepth a) =
        encodePacked name fields (options.withMaxDepth b) ∧
      ∀ token, encodePacked name fields (options.withMaxDepth a) = .ok token →
        decodePacked token (options.withMaxDepth a) =
          decodePacked token (options.withMaxDepth b) := by
  have hencode : encodePacked name fields (options.withMaxDepth a) =
      encodePacked name fields (options.withMaxDepth b) := by
    have hcheck : ∀ bound, (∀ field ∈ fields, field.depth < bound) →
        checkDepths bound fields = .ok () := fun bound hbound =>
      checkDepths_eq_ok_iff.2 fun field hfield => (hbound field hfield).le
    simp only [encodePacked, CodecOptions.withMaxDepth, MetaSchema.ofDepth_eq_ok_iff.2 ⟨ha, rfl⟩,
      MetaSchema.ofDepth_eq_ok_iff.2 ⟨hb, rfl⟩,
      hcheck a fun field hfield => (hdepth field hfield).1,
      hcheck b fun field hfield => (hdepth field hfield).2, ok_bind]
    refine congrArg _ (funext fun _ => ?_)
    cases hschema : Describe.schema name fields with
    -- Not `rfl`, which would compare the two sides through their meta-schemas.
    | error e => rw [error_bind, error_bind]
    | ok found =>
        obtain ⟨-, -, rfl⟩ := Describe.schema_eq_ok_iff.1 hschema
        simp only [ok_bind, encodeData, packData,
          MetaSchema.writeData_ofSchema_of_spareDepth hdepth]
  refine ⟨hencode, fun token htoken => ?_⟩
  rw [decodePacked_of_encodePacked htoken, decodePacked_of_encodePacked (hencode ▸ htoken)]

/-- The marks are two levels deep, so bounds of three and of five treat them alike. -/
theorem encodePacked_of_spareDepth_marks :
    ∃ token, encodePacked "m" markFields (({} : CodecOptions).withMaxDepth 3) = .ok token ∧
      encodePacked "m" markFields (({} : CodecOptions).withMaxDepth 5) = .ok token ∧
      decodePacked token (({} : CodecOptions).withMaxDepth 3) =
        decodePacked token (({} : CodecOptions).withMaxDepth 5) := by
  obtain ⟨token, htoken, -⟩ := exists_eq_ok_of_toOption
    (show (encodePacked "m" markFields (({} : CodecOptions).withMaxDepth 3)).toOption.any
      (fun _ => true) = true by decide +kernel)
  have hdepth : ∀ field ∈ markFields, field.depth < 3 ∧ field.depth < 5 := by decide +kernel
  obtain ⟨hencode, hdecode⟩ := @encodePacked_of_spareDepth {} "m" markFields 3 5
    (by decide) (by decide) hdepth
  exact ⟨token, htoken, hencode ▸ htoken, hdecode token htoken⟩

end FieldGrammar
