import Mathlib
import FieldGrammar.Proofs.ReadBack
import FieldGrammar.Proofs.ReadValues
import FieldGrammar.Proofs.Trees
import FieldGrammar.Proofs.Writing

/-!
# Read values are written as the same bits

Writing is left inverse to reading as well, under conditions on the nodes (`Node.Faithful`) that
rule out the values which two bit strings are read as: a field of a union's variant with the name
of the discriminator hides it, null inside an optional field cannot be told from no value, and a
grid on which two steps have the same number cannot tell these steps apart.

The invariant is about one node and two positions of the reader: whenever a value was read
between them, writing the value produces the bits in between (`Packing.Rewrites`).

## Main statements

* `Packing.rewrites_node` — a valid and faithful node, given what pointers do
* `Packing.rewrites_follow` — pointers
* `Packing.writeData_of_readData`, `Packing.normalData_of_unpackData` — a whole object
-/

namespace FieldGrammar

namespace Node

/-- What a node needs so that its values are written as they were read. -/
def Faithful (scope : List Node) : Node → Prop
  | fixed _ min max precision =>
    (Grid.ofPrecision precision).stepsOf min ≤ (Grid.ofPrecision precision).stepsOf max ∧
      ∀ k, (Grid.ofPrecision precision).stepsOf min ≤ k →
        k ≤ (Grid.ofPrecision precision).stepsOf max →
        ((Grid.ofPrecision precision).valueOf k).isFinite = true ∧
          (Grid.ofPrecision precision).stepsOf ((Grid.ofPrecision precision).valueOf k) = k
  | optional _ inner => inner.kind ≠ .optional ∧ ∀ name target, inner = .pointer name target →
      ∀ node, resolveTarget scope target = some node → node.kind ≠ .optional
  | union _ discriminator variants => ∀ entry ∈ variants, discriminator.name ∉ entry.2.map Node.name
  | _ => True

end Node

namespace Packing

/-! ### Parts -/

/-- One bit that was read. -/
theorem consumes_of_read_bit {r r' : BitReader} {k : Nat} (h : r.read 1 = .ok (k, r')) :
    r.Consumes [k == 1] r' := by
  rw [BitReader.read] at h
  split at h
  · next taken rest hsplit =>
    cases h
    obtain ⟨hrest, hlength⟩ := Bits.splitAt?_eq_some_iff.1 hsplit
    obtain ⟨b, rfl⟩ := List.length_eq_one_iff.1 hlength
    cases b <;> exact ⟨hrest, rfl⟩
  · cases h

/-- Items that were read are written as the consumed bits if each of them is.  The bits of the items
follow one another, as each item is read from where the one before it ends. -/
theorem consumes_of_repeated {α : Type} {read : BitReader → Except Error (α × BitReader)}
    {written : α → Bits → Prop}
    (h : ∀ r a r', read r = .ok (a, r') → ∃ bits, written a bits ∧ r.Consumes bits r')
    {n : Nat} {r r' : BitReader} {items : List α}
    (hread : BitReader.repeated read n r = .ok (items, r')) :
    items.length = n ∧
      ∃ parts, List.Forall₂ written items parts ∧ r.Consumes parts.flatten r' := by
  induction n generalizing r items with
  | zero =>
      cases hread
      exact ⟨rfl, [], .nil, BitReader.Consumes.nil _⟩
  | succ n ih =>
      rw [BitReader.repeated_succ, bind_eq_ok_iff] at hread
      obtain ⟨⟨first, s⟩, hfirst, hread⟩ := hread
      obtain ⟨⟨rest, t⟩, hrest, hread⟩ := bind_eq_ok_iff.1 hread
      cases hread
      obtain ⟨bits, hwritten, hconsumes⟩ := h _ _ _ hfirst
      obtain ⟨hlength, parts, hparts, hmore⟩ := ih hrest
      -- The items share one reader, so that the parts follow each other in the bits.
      exact ⟨by rw [List.length_cons, hlength], bits :: parts, .cons hwritten hparts,
        hconsumes.append hmore⟩

section

variable {followR : ReadPointer} {followW : WritePointer}

/-- What is read against a node is written as the consumed bits.  This is the property that is
carried through a tree of nodes. -/
def Rewrites (followR : ReadPointer) (followW : WritePointer) (node : Node) : Prop :=
  ∀ (r : BitReader) (value : Value) (r' : BitReader), readNode followR node r = .ok (value, r') →
    ∃ bits, writeNode followW node value = .ok bits ∧ r.Consumes bits r'

/-- Fields that were read are written from entries in which each of them is found.  The entries may
hold more, such as the discriminator of a union. -/
theorem rewrites_fields {fields : List Node}
    (hfields : ∀ field ∈ fields, Rewrites followR followW field) {r r' : BitReader}
    {pairs : List (String × Value)} (h : readFields followR fields r = .ok (pairs, r'))
    {entries : Entries Value}
    (hentries : ∀ pair ∈ pairs, Entries.get? entries pair.1 = some pair.2) :
    ∃ bits, writeFields followW fields entries = .ok bits ∧ r.Consumes bits r' := by
  induction fields generalizing r pairs with
  | nil =>
      cases h
      exact ⟨[], rfl, BitReader.Consumes.nil _⟩
  | cons field rest ih =>
      rw [readFields, bind_eq_ok_iff] at h
      obtain ⟨⟨first, s⟩, hfirst, h⟩ := h
      obtain ⟨⟨more, t⟩, hmore, h⟩ := bind_eq_ok_iff.1 h
      cases h
      obtain ⟨hfield, hrest⟩ := List.forall_mem_cons.1 hfields
      obtain ⟨hget, hentries⟩ := List.forall_mem_cons.1 hentries
      obtain ⟨bits, hbits, hconsumes⟩ := hfield _ _ _ hfirst
      obtain ⟨more', hmore', hconsumes'⟩ := ih hrest hmore hentries
      refine ⟨bits ++ more', ?_, hconsumes.append hconsumes'⟩
      rw [writeFields, Entries.getOrNull, hget, Option.getD_some, hbits, ok_bind, hmore']
      rfl

theorem keys_of_readFields {fields : List Node} {r r' : BitReader}
    {pairs : List (String × Value)} (h : readFields followR fields r = .ok (pairs, r')) :
    Entries.keys pairs = fields.map Node.name :=
  (readableFields_of_readFields h).keys_eq

/-! ### Kinds of nodes -/

theorem rewrites_bool (name : String) : Rewrites followR followW (.bool name) := by
  intro r value r' h
  obtain ⟨bit, hread, rfl⟩ := readNode_bool_eq_ok_iff.1 h
  exact ⟨_, writeNode_bool_eq_ok_iff.2 ⟨_, rfl, rfl⟩, consumes_of_read_bit hread⟩

/-- The number at an offset is written as the offset. -/
theorem rewrites_int (name : String) {min max : Int64} (hle : min ≤ max) :
    Rewrites followR followW (.int name min max) := by
  intro r value r' h
  obtain ⟨n, hread, rfl⟩ := readNode_int_eq_ok_iff.1 h
  obtain ⟨hbounds, hconsumes⟩ := offset_of_readOffset hle hread
  exact ⟨_, writeNode_int_eq_ok_iff.2 ⟨n, rfl, hbounds, rfl⟩, hconsumes⟩

/-- The number at a step is written as the step, if the grid tells steps apart. -/
theorem rewrites_fixed (name : String) {min max precision : Float} {scope : List Node}
    (hfaithful : (Node.fixed name min max precision).Faithful scope) :
    Rewrites followR followW (.fixed name min max precision) := by
  obtain ⟨hle, hsteps⟩ := hfaithful
  intro r value r' h
  obtain ⟨k, hread, rfl⟩ := readNode_fixed_eq_ok_iff.1 h
  obtain ⟨⟨hmin, hmax⟩, hconsumes⟩ := offset_of_readOffset hle hread
  obtain ⟨hfinite, hstable⟩ := hsteps k hmin hmax
  refine ⟨_, writeNode_fixed_eq_ok_iff.2 ⟨_, rfl, hfinite, ?_, rfl⟩, ?_⟩
  · rw [hstable]
    exact ⟨hmin, hmax⟩
  · rw [hstable]
    exact hconsumes

/-- With distinct options, an option is written as the index that it was read from. -/
theorem rewrites_enumeration {e : Enumeration} (hnodup : e.options.Nodup) :
    Rewrites followR followW (.enumeration e) := by
  intro r value r' h
  obtain ⟨option, hread, rfl⟩ := readNode_enumeration_eq_ok_iff.1 h
  obtain ⟨bits, hbits, hconsumes⟩ := writeOption_of_readOption hnodup hread
  exact ⟨bits, writeNode_enumeration_eq_ok_iff.2 ⟨option, hbits⟩, hconsumes⟩

/-- A value that is present is written behind a bit that is one, if it is not null; for null the bit
would be zero. -/
theorem rewrites_optional (name : String) {inner : Node}
    (hinner : Rewrites followR followW inner)
    (hnull : ∀ r value r', readNode followR inner r = .ok (value, r') → value ≠ .null) :
    Rewrites followR followW (.optional name inner) := by
  intro r value r' h
  obtain ⟨present, s, hread, ⟨hpresent, hvalue⟩ | ⟨hpresent, rfl, rfl⟩⟩ :=
    readNode_optional_eq_ok_iff.1 h
  · obtain ⟨bits, hbits, hconsumes⟩ := hinner _ _ _ hvalue
    have hbit := consumes_of_read_bit hread
    rw [hpresent] at hbit
    exact ⟨true :: bits,
      writeNode_optional_eq_ok_iff.2 (.inr ⟨hnull _ _ _ hvalue, bits, hbits, rfl⟩),
      hbit.append hconsumes⟩
  · have hbit := consumes_of_read_bit hread
    rw [beq_false_of_ne hpresent] at hbit
    exact ⟨[false], writeNode_optional_eq_ok_iff.2 (.inl ⟨rfl, rfl⟩), hbit⟩

/-- The length and the items are written as they were read. -/
theorem rewrites_array (name : String) (minLength maxLength : UInt32) {item : Node}
    (hitem : Rewrites followR followW item) :
    Rewrites followR followW (.array name minLength maxLength item) := by
  intro r value r' h
  obtain ⟨length, s, items, hlength, hitems, rfl⟩ := readNode_array_eq_ok_iff.1 h
  obtain ⟨bits, hbits, hconsumes⟩ := writeLength_of_readLength hlength
  obtain ⟨rfl, parts, hparts, hconsumes'⟩ := consumes_of_repeated hitem hitems
  exact ⟨_, writeNode_array_eq_ok_iff.2 ⟨items, bits, parts, rfl, hbits, hparts, rfl⟩,
    hconsumes.append hconsumes'⟩

/-- An array of options likewise, with distinct options. -/
theorem rewrites_enumArray (name : String) (minLength maxLength : UInt32) {e : Enumeration}
    (hnodup : e.options.Nodup) :
    Rewrites followR followW (.enumArray name minLength maxLength e) := by
  intro r value r' h
  obtain ⟨length, s, options, hlength, hoptions, rfl⟩ := readNode_enumArray_eq_ok_iff.1 h
  obtain ⟨bits, hbits, hconsumes⟩ := writeLength_of_readLength hlength
  obtain ⟨rfl, parts, hparts, hconsumes'⟩ := consumes_of_repeated
    (fun _ _ _ => writeOption_of_readOption hnodup) hoptions
  obtain ⟨heq, hzip⟩ := List.forall₂_iff_zip.1 hparts
  have hfst : (options.zip parts).map Prod.fst = options := List.map_fst_zip heq.le
  have hsnd : (options.zip parts).map Prod.snd = parts := List.map_snd_zip heq.ge
  refine ⟨bits ++ parts.flatten, writeNode_enumArray_eq_ok_iff.2
    ⟨bits, options.zip parts, by rw [hfst], ?_, ?_, by rw [hsnd]⟩, hconsumes.append hconsumes'⟩
  · rw [List.length_zip, ← heq, Nat.min_self]
    exact hbits
  · rintro ⟨option, part⟩ hpair
    exact hzip hpair

/-- With distinct names, each field finds the value that was read for it. -/
theorem rewrites_object (name : String) {fields : List Node}
    (hnames : (fields.map Node.name).Nodup)
    (hfields : ∀ field ∈ fields, Rewrites followR followW field) :
    Rewrites followR followW (.object name fields) := by
  intro r value r' h
  obtain ⟨pairs, hpairs, rfl⟩ := readNode_object_eq_ok_iff.1 h
  rw [← keys_of_readFields hpairs] at hnames
  rw [Entries.ofList_of_nodup hnames]
  obtain ⟨bits, hbits, hconsumes⟩ := rewrites_fields hfields hpairs fun pair hpair =>
    (Entries.get?_eq_some_iff hnames).2 hpair
  exact ⟨bits, writeNode_object_eq_ok_iff.2 ⟨pairs, rfl, hbits⟩, hconsumes⟩

/-- The entries of a union whose variants leave the discriminator alone. -/
theorem insertAll_of_readFields {fields : List Node} (hnames : (fields.map Node.name).Nodup)
    {key : String} (hkey : key ∉ fields.map Node.name) {r r' : BitReader}
    {pairs : List (String × Value)} (h : readFields followR fields r = .ok (pairs, r'))
    (value : Value) :
    Entries.insertAll [(key, value)] (Entries.ofList pairs) = (key, value) :: pairs := by
  rw [← keys_of_readFields h] at hnames hkey
  rw [Entries.ofList_of_nodup hnames, Entries.insertAll_of_disjoint hnames]
  · rfl
  · intro other hother hmem
    rw [List.mem_singleton.1 hmem] at hother
    exact hkey hother

/-- **What is read against a union that leaves the discriminator alone** is an object in which the
discriminator finds the option, and each field of the option's variant its value. -/
theorem exists_entries_of_readNode_union {name : String} {discriminator : Enumeration}
    {variants : Entries (List Node)}
    (hvariants : ∀ entry ∈ variants, (entry.2.map Node.name).Nodup ∧
      discriminator.name ∉ entry.2.map Node.name)
    {r r' : BitReader} {value : Value}
    (h : readNode followR (.union name discriminator variants) r = .ok (value, r')) :
    ∃ option s pairs entries, readOption discriminator r = .ok (option, s) ∧
      readFields followR ((Entries.get? variants option).getD []) s = .ok (pairs, r') ∧
      entries = (discriminator.name, .string option) :: pairs ∧ value = .object entries ∧
      Entries.getOrNull entries discriminator.name = .string option ∧
      ∀ pair ∈ pairs, Entries.get? entries pair.1 = some pair.2 := by
  obtain ⟨option, s, pairs, hoption, hpairs, rfl⟩ := readNode_union_eq_ok_iff.1 h
  have hvariant : (((Entries.get? variants option).getD []).map Node.name).Nodup ∧
      discriminator.name ∉ ((Entries.get? variants option).getD []).map Node.name := by
    cases hget : Entries.get? variants option with
    | none => simp
    | some found => exact hvariants _ (Entries.mem_of_get?_eq_some hget)
  obtain ⟨hnames, hkey⟩ := hvariant
  refine ⟨option, s, pairs, _, hoption, hpairs, insertAll_of_readFields hnames hkey hpairs _,
    rfl, ?_⟩
  rw [insertAll_of_readFields hnames hkey hpairs]
  rw [← keys_of_readFields hpairs] at hnames hkey
  refine ⟨Entries.getOrNull_cons_self .., fun pair hpair => ?_⟩
  have hne : discriminator.name ≠ pair.1 := fun heq => hkey (heq ▸ List.mem_map_of_mem hpair)
  rw [Entries.get?_cons_of_ne hne]
  exact (Entries.get?_eq_some_iff hnames).2 hpair

/-- The option and the fields of its variant are written as they were read, since the discriminator
still finds the option. -/
theorem rewrites_union (name : String) {discriminator : Enumeration}
    {variants : Entries (List Node)} (hnodup : discriminator.options.Nodup)
    (hvariants : ∀ entry ∈ variants, (entry.2.map Node.name).Nodup ∧
      discriminator.name ∉ entry.2.map Node.name)
    (hfields : ∀ entry ∈ variants, ∀ field ∈ entry.2, Rewrites followR followW field) :
    Rewrites followR followW (.union name discriminator variants) := by
  intro r value r' h
  obtain ⟨option, s, pairs, entries, hoption, hpairs, -, rfl, hchosen, hentries⟩ :=
    exists_entries_of_readNode_union hvariants h
  obtain ⟨head, hhead, hconsumes⟩ := writeOption_of_readOption hnodup hoption
  obtain ⟨bits, hbits, hconsumes'⟩ :=
    rewrites_fields (Entries.forall_mem_getD hfields option) hpairs hentries
  rw [← hchosen] at hhead
  exact ⟨head ++ bits, writeNode_union_eq_ok_iff.2 ⟨_, option, head, bits, rfl, hhead, hbits, rfl⟩,
    hconsumes.append hconsumes'⟩

/-! ### Null -/

/-- Null is only read at optional fields and at pointers.  At a pointer it is the target that
decides, so this is asked of what pointers lead to. -/
theorem ne_null_of_readNode {node : Node} (hoptional : node.kind ≠ .optional)
    (hpointer : node.kind ≠ .pointer) {r r' : BitReader} {value : Value}
    (h : readNode followR node r = .ok (value, r')) : value ≠ .null := by
  cases node with
  | bool =>
      obtain ⟨_, -, rfl⟩ := readNode_bool_eq_ok_iff.1 h
      simp
  | int =>
      obtain ⟨_, -, rfl⟩ := readNode_int_eq_ok_iff.1 h
      simp
  | fixed =>
      obtain ⟨_, -, rfl⟩ := readNode_fixed_eq_ok_iff.1 h
      simp
  | enumeration =>
      obtain ⟨_, -, rfl⟩ := readNode_enumeration_eq_ok_iff.1 h
      simp
  | array =>
      obtain ⟨_, _, _, -, -, rfl⟩ := readNode_array_eq_ok_iff.1 h
      simp
  | enumArray =>
      obtain ⟨_, _, _, -, -, rfl⟩ := readNode_enumArray_eq_ok_iff.1 h
      simp
  | object =>
      obtain ⟨_, -, rfl⟩ := readNode_object_eq_ok_iff.1 h
      simp
  | union =>
      obtain ⟨_, _, _, -, -, rfl⟩ := readNode_union_eq_ok_iff.1 h
      simp
  | optional => exact absurd rfl hoptional
  | pointer => exact absurd rfl hpointer

/-! ### Whole nodes -/

/-- What is read at pointers is written as the consumed bits, and null is read there only if the
target is optional. -/
structure FollowsFaithfully (scope : List Node) (followR : ReadPointer)
    (followW : WritePointer) : Prop where
  rewrites : ∀ name target, Rewrites followR followW (.pointer name target)
  ne_null : ∀ name target,
    (∀ node, resolveTarget scope target = some node → node.kind ≠ .optional) →
      ∀ r value r', followR name target r = .ok (value, r') → value ≠ .null

/-- **What is read against a valid and faithful node is written as the consumed bits**, if this
holds of what is read at pointers. -/
theorem rewrites_node {scope : List Node} (hfollow : FollowsFaithfully scope followR followW)
    {node : Node} (hvalid : node.Valid) (hfaithful : ∀ m ∈ node.walk, m.Faithful scope) :
    Rewrites followR followW node := by
  induction node using Node.induction_children with
  | step node ih =>
      have hself := hfaithful node (Node.mem_walk_self node)
      have hchildren : ∀ child ∈ node.children, Rewrites followR followW child := by
        intro child hchild
        have hwalk : child.walk ⊆ node.walk := fun m hm =>
          Node.mem_walk.2 (.inr ⟨child, hchild, hm⟩)
        exact ih child hchild (hvalid.of_mem_walk (hwalk (Node.mem_walk_self child)))
          fun m hm => hfaithful m (hwalk hm)
      cases node with
      | bool name => exact rewrites_bool name
      | int name min max => exact rewrites_int name (Node.valid_int_iff.1 hvalid)
      | fixed name min max precision => exact rewrites_fixed name hself
      | enumeration e => exact rewrites_enumeration (Node.valid_enumeration_iff.1 hvalid).2
      | optional name inner =>
          obtain ⟨hoptional, htarget⟩ := hself
          refine rewrites_optional name (hchildren inner (List.mem_singleton_self inner)) ?_
          by_cases hpointer : inner.kind = .pointer
          · cases inner with
            | pointer own target => exact hfollow.ne_null own target (htarget own target rfl)
            | bool | int | fixed | enumeration | optional | array | enumArray | object | union =>
                cases hpointer
          · exact fun _ _ _ => ne_null_of_readNode hoptional hpointer
      | array name minLength maxLength item =>
          exact rewrites_array name minLength maxLength
            (hchildren item (List.mem_singleton_self item))
      | enumArray name minLength maxLength e =>
          exact rewrites_enumArray name minLength maxLength
            (Node.valid_enumArray_iff.1 hvalid).2.2
      | object name fields =>
          exact rewrites_object name (Node.valid_object_iff.1 hvalid).1 hchildren
      | union name discriminator variants =>
          obtain ⟨⟨-, hnodup⟩, -, hvariants⟩ := Node.valid_union_iff.1 hvalid
          exact rewrites_union name hnodup
            (fun entry hentry => ⟨(hvariants entry hentry).1, hself entry hentry⟩)
            (Node.forall_variants_of_children hvalid hchildren)
      | pointer name target => exact hfollow.rewrites name target

end

/-! ### Pointers and whole objects -/

/-- **What is read at a pointer is written as the consumed bits**, however many pointers are still
to be followed.  The induction is on this number, as for writing and reading back. -/
theorem rewrites_follow {scope : List Node} (hscope : ∀ field ∈ scope, field.Valid)
    (hfaithful : ∀ m ∈ Node.walkList scope, m.Faithful scope) (limit budget : Nat) :
    FollowsFaithfully scope (followRead scope limit budget) (followWrite scope limit budget) := by
  induction budget with
  | zero =>
      constructor
      · intro name target r value r' h
        rw [readNode_pointer, followRead] at h
        split at h <;> cases h
      · intro name target _ r value r' h
        rw [followRead] at h
        split at h <;> cases h
  | succ budget ih =>
      constructor
      · intro name target r value r' h
        rw [readNode_pointer, followRead] at h
        split at h
        · cases h
        · next node hnode =>
          have hwalk : node.walk ⊆ Node.walkList scope :=
            Node.walk_subset_walkList (resolveTarget_some hnode).2.2
          rw [writeNode, followWrite, hnode]
          exact rewrites_node ih (valid_of_resolveTarget hscope hnode)
            (fun m hm => hfaithful m (hwalk hm)) r value r' h
      · intro name target htarget r value r' h
        rw [followRead] at h
        split at h
        · cases h
        · next node hnode =>
          refine ne_null_of_readNode (htarget node hnode) ?_ h
          intro hpointer
          have htarget' := (resolveTarget_some hnode).1
          cases node with
          | pointer => cases htarget'
          | bool | int | fixed | enumeration | optional | array | enumArray | object | union =>
              cases hpointer

/-- **An object that was read is written as the bits of its fields**, and fewer than eight are left
over. These are the padding, which reading does not keep. -/
theorem writeData_of_readData {fields : List Node} (hnames : (fields.map Node.name).Nodup)
    (hvalid : ∀ field ∈ fields, field.Valid)
    (hfaithful : ∀ m ∈ Node.walkList fields, m.Faithful fields) {pointerDepth : Nat}
    {r : BitReader} {data : Value} (h : readData fields pointerDepth r = .ok data) :
    ∃ bits pairs r', writeData fields data pointerDepth = .ok bits ∧
      readFields (followRead fields pointerDepth pointerDepth) fields r = .ok (pairs, r') ∧
      r.Consumes bits r' ∧ r'.remaining < 8 := by
  obtain ⟨pairs, r', hpairs, hremaining, rfl⟩ := readData_eq_ok_iff.1 h
  rw [← keys_of_readFields hpairs] at hnames
  have hfields : ∀ field ∈ fields, Rewrites (followRead fields pointerDepth pointerDepth)
      (followWrite fields pointerDepth pointerDepth) field := fun field hfield =>
    rewrites_node (rewrites_follow hvalid hfaithful pointerDepth pointerDepth)
      (hvalid field hfield) fun m hm => hfaithful m (Node.mem_walkList.2 ⟨field, hfield, hm⟩)
  obtain ⟨bits, hbits, hconsumes⟩ := rewrites_fields hfields hpairs fun pair hpair =>
    (Entries.get?_eq_some_iff hnames).2 hpair
  refine ⟨bits, pairs, r', ?_, hpairs, hconsumes, hremaining⟩
  rw [writeData, Entries.ofList_of_nodup hnames]
  exact hbits

/-- **An object that was read can be written and is its own normal form.**  For such data packing
and unpacking are inverse to each other, up to padding. -/
theorem normalData_of_unpackData {fields : List Node} (hnames : (fields.map Node.name).Nodup)
    (hvalid : ∀ field ∈ fields, field.Valid)
    (hfaithful : ∀ m ∈ Node.walkList fields, m.Faithful fields) {bytes : List UInt8}
    {options : CodecOptions} {data : Value} (h : unpackData fields bytes options = .ok data) :
    (∃ bits, writeData fields data options.pointerDepth = .ok bits) ∧
      normalData fields data options = data := by
  rw [unpackData, BitReader.ofBytes] at h
  obtain ⟨bits, -, r', hbits, -, ⟨hbytes, -⟩, hrest⟩ :=
    writeData_of_readData hnames hvalid hfaithful h
  dsimp only at hbytes
  rw [hbytes, readData_of_writeData hnames hvalid hbits 0 hrest] at h
  exact ⟨⟨bits, hbits⟩, Except.ok.inj h⟩

end Packing

end FieldGrammar
