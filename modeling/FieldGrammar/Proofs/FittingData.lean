import Mathlib
import FieldGrammar.Proofs.MetaSchemas
import FieldGrammar.Proofs.Rewriting

/-!
# When decoded data fits its schema

Data that was decoded is refused by the encoder of the same schema when a variant of a union has
a field that is called like the discriminator: both share the entries of one object, reading
puts the field over the discriminator, and writing then looks for an option there.  Validation
compares the names of the fields of a variant with each other only, so that such schemas are
valid.

Apart from that, and from fixed-point numbers, whose steps need not come back from their values,
everything that is read can be written.  Null inside an optional field is no exception: it is
written with fewer bits than it was read from, but it is written.

## Main definitions

* `Node.DiscriminatorApart` — no variant of a union hides the discriminator
* `Packing.Refits` — what is read against a node can be written against it

## Main statements

* `Packing.refits_node`, `Packing.refits_follow` — nodes, and what pointers lead to
* `validateData_of_unpackData` — decoded data fits
* `exists_unpackData_not_validateData` — a hidden discriminator
-/

namespace FieldGrammar

namespace Node

/-- No variant of a union has a field that is called like the discriminator.  Validation does not
ask for this, as the discriminator is not among the fields. -/
def DiscriminatorApart : Node → Prop
  | union _ discriminator variants => ∀ entry ∈ variants, discriminator.name ∉ entry.2.map Node.name
  | _ => True

instance : DecidablePred DiscriminatorApart
  | union _ discriminator variants =>
    inferInstanceAs (Decidable (∀ entry ∈ variants, discriminator.name ∉ entry.2.map Node.name))
  | bool _ | int .. | fixed .. | enumeration _ | optional .. | array .. | enumArray ..
  | object .. | pointer .. => isTrue trivial

end Node

namespace Packing

section

variable {followR : ReadPointer} {followW : WritePointer}

/-! ### Fields -/

/-- What is read against a node can be written against it.  Unlike rewriting, this does not say that
the same bits come out. -/
def Refits (followR : ReadPointer) (followW : WritePointer) (node : Node) : Prop :=
  ∀ value, Readable followR node value → Writable followW node value

/-- What is written as it was read can be written. -/
theorem Rewrites.refits {node : Node} (h : Rewrites followR followW node) :
    Refits followR followW node := by
  rintro value ⟨r, r', hread⟩
  obtain ⟨bits, hbits, -⟩ := h r value r' hread
  exact ⟨bits, hbits⟩

/-- In entries that hold what was read, each field finds a value that was read against it. -/
theorem ReadableFields.getOrNull {fields : List Node} {pairs : List (String × Value)}
    (h : ReadableFields followR fields pairs) {entries : Entries Value}
    (hentries : ∀ pair ∈ pairs, Entries.get? entries pair.1 = some pair.2) :
    ∀ field ∈ fields, Readable followR field (Entries.getOrNull entries field.name) := by
  induction fields generalizing pairs with
  | nil => exact nofun
  | cons field rest ih =>
      obtain ⟨value, more, rfl, hvalue, hmore⟩ := h.cons
      obtain ⟨hget, hentries⟩ := List.forall_mem_cons.1 hentries
      refine List.forall_mem_cons.2 ⟨?_, ih hmore hentries⟩
      rw [Entries.getOrNull, hget]
      exact hvalue

/-! ### Kinds of nodes -/

/-- An optional value can be written if the inner value can: null in either place is written as no
value. -/
theorem refits_optional (name : String) {inner : Node} (hinner : Refits followR followW inner) :
    Refits followR followW (.optional name inner) := by
  rintro value ⟨r, r', hread⟩
  -- Null is written as an absent value, also where it was read inside.
  by_cases hnull : value = .null
  · exact ⟨[false], writeNode_optional_eq_ok_iff.2 (.inl ⟨hnull, rfl⟩)⟩
  · obtain ⟨_, s, -, ⟨-, hvalue⟩ | ⟨-, rfl, -⟩⟩ := readNode_optional_eq_ok_iff.1 hread
    · obtain ⟨bits, hbits⟩ := hinner value ⟨s, r', hvalue⟩
      exact ⟨_, writeNode_optional_eq_ok_iff.2 (.inr ⟨hnull, bits, hbits, rfl⟩)⟩
    · exact absurd rfl hnull

/-- The length that was read is within the bounds, and the items can be written one by one. -/
theorem refits_array (name : String) (minLength maxLength : UInt32) {item : Node}
    (hitem : Refits followR followW item) :
    Refits followR followW (.array name minLength maxLength item) := by
  rintro value ⟨r, r', hread⟩
  obtain ⟨length, s, items, hlength, hitems, rfl⟩ := readNode_array_eq_ok_iff.1 hread
  obtain ⟨rfl, hreadable⟩ := BitReader.mem_of_repeated hitems
  obtain ⟨bits, hbits, -⟩ := writeLength_of_readLength hlength
  exact writable_array_iff.2 ⟨(writeLength_eq_ok_iff.1 hbits).1, fun element helement =>
    hitem element (hreadable element helement)⟩

/-- With distinct names, each field finds the value that was read for it, which can be written. -/
theorem refits_object (name : String) {fields : List Node}
    (hnames : (fields.map Node.name).Nodup)
    (hfields : ∀ field ∈ fields, Refits followR followW field) :
    Refits followR followW (.object name fields) := by
  intro value hvalue
  obtain ⟨pairs, rfl, hpairs⟩ := exists_object_of_readable hvalue
  rw [← hpairs.keys_eq] at hnames
  rw [Entries.ofList_of_nodup hnames, writable_object_iff]
  intro field hfield
  refine hfields field hfield _ (hpairs.getOrNull (fun pair hpair => ?_) field hfield)
  exact (Entries.get?_eq_some_iff hnames).2 hpair

/-- A union whose variants leave the discriminator alone: it finds the option that was read, and so
the variant whose fields were read. -/
theorem refits_union (name : String) {discriminator : Enumeration}
    {variants : Entries (List Node)} (hnodup : discriminator.options.Nodup)
    (hvariants : ∀ entry ∈ variants, (entry.2.map Node.name).Nodup ∧
      discriminator.name ∉ entry.2.map Node.name)
    (hfields : ∀ entry ∈ variants, ∀ field ∈ entry.2, Refits followR followW field) :
    Refits followR followW (.union name discriminator variants) := by
  rintro value ⟨r, r', hread⟩
  obtain ⟨option, s, pairs, entries, hoption, hpairs, -, rfl, hchosen, hentries⟩ :=
    exists_entries_of_readNode_union hvariants hread
  -- The discriminator finds the option that was read, so the same variant is written.
  obtain ⟨head, hhead, -⟩ := writeOption_of_readOption hnodup hoption
  have hreadable := (readableFields_of_readFields hpairs).getOrNull hentries
  have hwritable : ∀ field ∈ (Entries.get? variants option).getD [],
      Writable followW field (Entries.getOrNull entries field.name) := fun field hfield =>
    Entries.forall_mem_getD hfields option field hfield _ (hreadable field hfield)
  obtain ⟨bits, hbits⟩ := exists_writeFields_iff.2 hwritable
  rw [← hchosen] at hhead
  exact ⟨_, writeNode_union_eq_ok_iff.2 ⟨_, option, head, bits, rfl, hhead, hbits, rfl⟩⟩

/-! ### Whole nodes -/

/-- **What is read against a valid node can be written against it**, if the node and those below
have no fixed-point numbers and no hidden discriminators, and if this holds of what is read at
pointers. -/
theorem refits_node (hfollow : ∀ name target, Refits followR followW (.pointer name target))
    {node : Node} (hvalid : node.Valid)
    (hfixed : ∀ m ∈ node.walk, m.kind ≠ .fixed)
    (hapart : ∀ m ∈ node.walk, m.DiscriminatorApart) :
    Refits followR followW node := by
  induction node using Node.induction_children with
  | step node ih =>
      have hchildren : ∀ child ∈ node.children, Refits followR followW child := fun child hchild =>
        ih child hchild ((Node.valid_iff.1 hvalid).2 child hchild)
          ((Node.forall_mem_walk_iff.1 hfixed).2 child hchild)
          ((Node.forall_mem_walk_iff.1 hapart).2 child hchild)
      cases node with
      | bool name => exact (rewrites_bool name).refits
      | int name min max => exact (rewrites_int name (Node.valid_int_iff.1 hvalid)).refits
      | fixed => exact absurd rfl (hfixed _ (Node.mem_walk_self _))
      | enumeration e =>
          exact (rewrites_enumeration (Node.valid_enumeration_iff.1 hvalid).2).refits
      | optional name inner =>
          exact refits_optional name (hchildren inner (List.mem_singleton_self inner))
      | array name minLength maxLength item =>
          exact refits_array name minLength maxLength
            (hchildren item (List.mem_singleton_self item))
      | enumArray name minLength maxLength e =>
          exact (rewrites_enumArray name minLength maxLength
            (Node.valid_enumArray_iff.1 hvalid).2.2).refits
      | object name fields =>
          exact refits_object name (Node.valid_object_iff.1 hvalid).1 hchildren
      | union name discriminator variants =>
          obtain ⟨⟨-, hnodup⟩, -, hvariants⟩ := Node.valid_union_iff.1 hvalid
          have hself := hapart _ (Node.mem_walk_self _)
          exact refits_union name hnodup
            (fun entry hentry => ⟨(hvariants entry hentry).1, hself entry hentry⟩)
            (Node.forall_variants_of_children hvalid hchildren)
      | pointer name target => exact hfollow name target

end

/-! ### Pointers and whole objects -/

/-- What is read at a pointer can be written there, however many pointers are still to be
followed. -/
theorem refits_follow {scope : List Node} (hscope : ∀ field ∈ scope, field.Valid)
    (hfixed : ∀ m ∈ Node.walkList scope, m.kind ≠ .fixed)
    (hapart : ∀ m ∈ Node.walkList scope, m.DiscriminatorApart) (limit budget : Nat)
    (name target : String) :
    Refits (followRead scope limit budget) (followWrite scope limit budget)
      (.pointer name target) := by
  -- On the pointers that may still be followed, of which reading and writing count the same.
  induction budget generalizing name target with
  | zero =>
      intro value hvalue
      obtain ⟨rest, node, hrest, -⟩ := exists_of_readable_pointer hvalue
      cases hrest
  | succ budget ih =>
      intro value hvalue
      obtain ⟨_, node, ⟨⟩, hnode, hvalue⟩ := exists_of_readable_pointer hvalue
      have hwalk : node.walk ⊆ Node.walkList scope :=
        Node.walk_subset_walkList (resolveTarget_some hnode).2.2
      obtain ⟨bits, hbits⟩ := refits_node ih (valid_of_resolveTarget hscope hnode)
        (fun m hm => hfixed m (hwalk hm)) (fun m hm => hapart m (hwalk hm)) value hvalue
      refine ⟨bits, ?_⟩
      rw [writeNode, followWrite, hnode]
      exact hbits

end Packing

open Packing

/-- **Decoded data fits its schema**, if the schema is valid, has no fixed-point numbers, and no
variant of a union in it has a field that is called like the discriminator.  The last condition is
not one that validation makes, and it cannot be left out, as `exists_unpackData_not_validateData`
shows. -/
theorem validateData_of_unpackData {name : String} {fields : List Node}
    (hvalid : Schema.validate ⟨name, fields⟩ = .ok ())
    (hfixed : ∀ m ∈ Node.walkList fields, m.kind ≠ .fixed)
    (hapart : ∀ m ∈ Node.walkList fields, m.DiscriminatorApart)
    {bytes : List UInt8} {options : CodecOptions} {data : Value}
    (h : unpackData fields bytes options = .ok data) :
    validateData fields data options = .ok () := by
  obtain ⟨hnames, hfields⟩ := Schema.validate_eq_ok_iff.1 hvalid
  obtain ⟨pairs, r', hpairs, -, rfl⟩ := readData_eq_ok_iff.1 h
  rw [← keys_of_readFields hpairs] at hnames
  have hreadable := (readableFields_of_readFields hpairs).getOrNull fun pair hpair =>
    (Entries.get?_eq_some_iff hnames).2 hpair
  have hwritable : ∀ field ∈ fields, Writable
      (followWrite fields options.pointerDepth options.pointerDepth) field
      (Entries.getOrNull pairs field.name) := by
    intro field hfield
    have hwalk : field.walk ⊆ Node.walkList fields := fun m hm =>
      Node.mem_walkList.2 ⟨field, hfield, hm⟩
    exact refits_node
      (refits_follow hfields hfixed hapart options.pointerDepth options.pointerDepth)
      (hfields field hfield) (fun m hm => hfixed m (hwalk hm)) (fun m hm => hapart m (hwalk hm))
      _ (hreadable field hfield)
  obtain ⟨bits, hbits⟩ := exists_writeFields_iff.2 hwritable
  have hwrite : writeData fields (.object (Entries.ofList pairs)) options.pointerDepth =
      .ok bits := by
    rw [writeData, Entries.ofList_of_nodup hnames]
    exact hbits
  rw [validateData, packData, hwrite]
  rfl

/-- A list of links, each of which says whether another one follows. -/
def chainFields : List Node :=
  [.union "chain" ⟨"kind", ["end", "link"]⟩
    [("end", []), ("link", [.optional "next" (.optional "more" (.pointer "rest" "chain"))])]]

/-- Null is read inside an optional field, and fits. -/
theorem validateData_of_unpackData_chain :
    unpackData chainFields [0b11000000] {} = .ok
      (.object [("chain", .object [("kind", .string "link"), ("next", .null)])]) ∧
    validateData chainFields
      (.object [("chain", .object [("kind", .string "link"), ("next", .null)])]) {} = .ok () := by
  have hvalid : Schema.validate ⟨"c", chainFields⟩ = .ok () := rfl
  have hread : unpackData chainFields [0b11000000] {} = .ok
      (.object [("chain", .object [("kind", .string "link"), ("next", .null)])]) := rfl
  exact ⟨hread, validateData_of_unpackData hvalid (by decide) (by decide) hread⟩

/-- A union whose only variant has a field that is called like the discriminator.  The field is
Boolean, so what stands in the place of the option is no text. -/
def hiddenKindFields : List Node :=
  [.union "u" ⟨"kind", ["a"]⟩ [("a", [.bool "kind"])]]

/-- **A hidden discriminator**: the schema is valid and its pointers resolve, but what is decoded
is refused by the encoder. -/
theorem exists_unpackData_not_validateData :
    Schema.validate ⟨"s", hiddenKindFields⟩ = .ok () ∧
    Schema.resolvePointers ⟨"s", hiddenKindFields⟩ = .ok () ∧
    (∀ m ∈ Node.walkList hiddenKindFields, m.kind ≠ .fixed) ∧
    ∃ data, unpackData hiddenKindFields [0x80] {} = .ok data ∧
      validateData hiddenKindFields data {} =
        .error (.invalidData "kind" (.mismatch "enum option" "bool")) :=
  ⟨rfl, rfl, by decide, .object [("u", .object [("kind", .bool true)])], rfl, rfl⟩

end FieldGrammar
