import Mathlib
import FieldGrammar.Proofs.Projection
import FieldGrammar.Proofs.Reading
import FieldGrammar.Proofs.Trees
import FieldGrammar.Proofs.Writing

/-!
# Written values are read back

Reading what was written returns the normal form of the value.  The invariant is about one node
and arbitrary bits behind those of its value: whenever a value is written against a valid node,
the reader of the node is right about these bits and returns the normal form of the value
(`Packing.ReadsBack`).  It is inherited through the constructors of the node, and through
pointers by induction on the number of pointers that may still be followed.

## Main statements

* `Packing.reads_node` — a valid node, given what pointers do
* `Packing.reads_follow` — pointers
* `Packing.unpackData_toBytes` — a whole object as octets
-/

namespace FieldGrammar

namespace Packing

section

variable {followW : WritePointer} {followR : ReadPointer} {followN : ProjectPointer}

/-! ### Fields -/

/-- What is written against a node is read back in normal form, whatever bits stand behind.  The
three parameters are what writing, reading and the normal form do at pointers. -/
def ReadsBack (followW : WritePointer) (followR : ReadPointer) (followN : ProjectPointer)
    (node : Node) : Prop :=
  ∀ (value : Value) (bits : Bits), writeNode followW node value = .ok bits →
    Reads (readNode followR node) bits (projectNode normalLeaf followN node value)

/-- Fields are read back if each of them is.  They come one after the other, and the bits of those
that follow are what stands behind the first. -/
theorem reads_fields {fields : List Node} {entries : Entries Value} {bits : Bits}
    (hfields : ∀ field ∈ fields, ReadsBack followW followR followN field)
    (h : writeFields followW fields entries = .ok bits) :
    Reads (readFields followR fields) bits (projectFields normalLeaf followN fields entries) := by
  induction fields generalizing bits with
  | nil =>
      rw [writeFields] at h
      cases h
      exact Reads.nil []
  | cons field rest ih =>
      rw [writeFields, bind_eq_ok_iff] at h
      obtain ⟨first, hfirst, h⟩ := h
      rw [bind_eq_ok_iff] at h
      obtain ⟨more, hmore, h⟩ := h
      cases h
      have hread := hfields field List.mem_cons_self _ _ hfirst
      have htail := ih (fun f hf => hfields f (List.mem_cons_of_mem _ hf)) hmore
      intro offset after
      rw [readFields, List.append_assoc, hread, ok_bind]
      dsimp only
      rw [htail, ok_bind, List.length_append, ← Nat.add_assoc]
      rfl

/-! ### Kinds of nodes -/

theorem readsBack_bool (name : String) : ReadsBack followW followR followN (.bool name) := by
  intro value bits h
  obtain ⟨b, rfl, rfl⟩ := writeNode_bool_eq_ok_iff.1 h
  intro offset rest
  rw [readNode, List.singleton_append, read_bit, ok_bind]
  cases b <;> rfl

/-- An integer is read back, as the sum of the least one and the distance that was written. -/
theorem readsBack_int (name : String) (min max : Int64) :
    ReadsBack followW followR followN (.int name min max) := by
  intro value bits h
  obtain ⟨n, hn, ⟨hmin, hmax⟩, rfl⟩ := writeNode_int_eq_ok_iff.1 h
  intro offset rest
  rw [readNode, reads_offset name hmin hmax, ok_bind, projectNode, normalLeaf, hn]
  rfl

/-- A number with a point is read back as the number at its step, which is its normal form. -/
theorem readsBack_fixed (name : String) (min max precision : Float) :
    ReadsBack followW followR followN (.fixed name min max precision) := by
  intro value bits h
  obtain ⟨x, hx, -, ⟨hmin, hmax⟩, rfl⟩ := writeNode_fixed_eq_ok_iff.1 h
  intro offset rest
  rw [readNode, readFixed, reads_offset name hmin hmax, ok_bind, projectNode, normalLeaf, hx]
  rfl

/-- An option is read back from its place in the list of options. -/
theorem readsBack_enumeration (e : Enumeration) :
    ReadsBack followW followR followN (.enumeration e) := by
  intro value bits h
  obtain ⟨option, hoption⟩ := writeNode_enumeration_eq_ok_iff.1 h
  obtain ⟨rfl, -⟩ := writeOption_eq_ok_iff.1 hoption
  intro offset rest
  rw [readNode, reads_option hoption, ok_bind, projectNode]
  rfl

/-- The first bit tells null from a value, and neither is read as the other. -/
theorem readsBack_optional (name : String) {inner : Node}
    (hinner : ReadsBack followW followR followN inner) :
    ReadsBack followW followR followN (.optional name inner) := by
  intro value bits h
  rw [projectNode]
  rcases writeNode_optional_eq_ok_iff.1 h with ⟨rfl, rfl⟩ | ⟨hnull, more, hmore, rfl⟩
  · intro offset rest
    rw [readNode, List.singleton_append, read_bit]
    rfl
  · intro offset rest
    have hread := hinner _ _ hmore (offset + 1) rest
    rw [if_neg fun hisnull => hnull (Value.isNull_iff.1 hisnull), readNode, List.cons_append,
      read_bit, ok_bind]
    dsimp only
    rw [if_pos (show true.toNat = 1 from rfl), hread, List.length_cons, Nat.add_assoc,
      Nat.add_comm 1]

/-- The length of an array and its items are read back. -/
theorem reads_items {α : Type} {name : String} {minLength maxLength : UInt32} {length : Bits}
    {parts : List Bits} {items : List α} {read : BitReader → Except Error (α × BitReader)}
    (hlength : writeLength name items.length minLength maxLength = .ok length)
    (hitems : List.Forall₂ (fun part item => Reads read part item) parts items)
    (finish : List α → Value) :
    Reads (fun r => do
      let (length, r) ← readLength name minLength maxLength r
      let (items, r) ← BitReader.repeated read length r
      return (finish items, r)) (length ++ parts.flatten) (finish items) := by
  intro offset rest
  dsimp only
  rw [List.append_assoc, reads_length hlength, ok_bind]
  dsimp only
  rw [Reads.repeated hitems, ok_bind, List.length_append, ← Nat.add_assoc]
  rfl

/-- An array is read back item by item, in their order, after its length. -/
theorem readsBack_array (name : String) (minLength maxLength : UInt32) {item : Node}
    (hitem : ReadsBack followW followR followN item) :
    ReadsBack followW followR followN (.array name minLength maxLength item) := by
  intro value bits h
  obtain ⟨items, length, parts, rfl, hlength, hparts, rfl⟩ := writeNode_array_eq_ok_iff.1 h
  have hitems : List.Forall₂ (fun part element => Reads (readNode followR item) part element) parts
      (items.map fun element => projectNode normalLeaf followN item element) := by
    rw [List.forall₂_map_right_iff]
    exact hparts.flip.imp fun part element hwrite => hitem element part hwrite
  rw [← @List.length_map _ _ items (projectNode normalLeaf followN item)] at hlength
  exact reads_items hlength hitems .array

theorem readsBack_enumArray (name : String) (minLength maxLength : UInt32) (e : Enumeration) :
    ReadsBack followW followR followN (.enumArray name minLength maxLength e) := by
  intro value bits h
  obtain ⟨length, pairs, rfl, hlength, hoptions, rfl⟩ := writeNode_enumArray_eq_ok_iff.1 h
  have hitems : List.Forall₂ (fun part option => Reads (readOption e) part option)
      (pairs.map Prod.snd) (pairs.map Prod.fst) := by
    rw [List.forall₂_map_left_iff, List.forall₂_map_right_iff, List.forall₂_same]
    exact fun pair hpair => reads_option (hoptions pair hpair)
  rw [← @List.length_map _ _ pairs Prod.fst] at hlength
  exact reads_items hlength hitems fun options => .array (options.map .string)

/-- An object is read back with the entries of its fields.  Their names are distinct, so that no
entry of the result overwrites another. -/
theorem readsBack_object (name : String) {fields : List Node}
    (hnames : (fields.map Node.name).Nodup)
    (hfields : ∀ field ∈ fields, ReadsBack followW followR followN field) :
    ReadsBack followW followR followN (.object name fields) := by
  intro value bits h
  obtain ⟨entries, rfl, hwrite⟩ := writeNode_object_eq_ok_iff.1 h
  have hkeys := @keys_projectFields normalLeaf followN fields entries
  intro offset rest
  rw [readNode, reads_fields hfields hwrite, ok_bind]
  dsimp only
  rw [Entries.ofList_of_nodup (by rwa [hkeys])]
  rfl

/-- A union is read back even if a field of the chosen variant has the name of the
discriminator: what stands under that name is the text of the option, and reading it as another
field returns that text. -/
theorem readsBack_union (name : String) (discriminator : Enumeration)
    {variants : Entries (List Node)} (hshape : ∀ name target, KeepsShape (followN name target))
    (hvariants : ∀ entry ∈ variants, (entry.2.map Node.name).Nodup ∧
      ∀ field ∈ entry.2, ReadsBack followW followR followN field) :
    ReadsBack followW followR followN (.union name discriminator variants) := by
  intro value bits h
  obtain ⟨entries, option, head, rest, rfl, hhead, hrest, rfl⟩ := writeNode_union_eq_ok_iff.1 h
  obtain ⟨hchosen, -⟩ := writeOption_eq_ok_iff.1 hhead
  rw [projectNode_union_of_string hchosen]
  generalize hfields : (Entries.get? variants option).getD [] = fields at hrest ⊢
  have hvariant : (fields.map Node.name).Nodup ∧
      ∀ field ∈ fields, ReadsBack followW followR followN field := by
    subst hfields
    cases hget : Entries.get? variants option with
    | none => simp
    | some found => exact hvariants _ (Entries.mem_of_get?_eq_some hget)
  obtain ⟨hnames, hread⟩ := hvariant
  have hkeys := @keys_projectFields normalLeaf followN fields entries
  rw [← hkeys] at hnames
  have hdiscriminator :
      (Entries.get? (projectFields normalLeaf followN fields entries) discriminator.name).getD
        (.string option) = .string option := by
    cases hget : Entries.get? (projectFields normalLeaf followN fields entries)
        discriminator.name with
    | none => rfl
    | some found =>
        have hmem := Entries.mem_of_get?_eq_some hget
        rw [projectFields_eq, List.mem_map] at hmem
        obtain ⟨field, -, heq⟩ := hmem
        obtain ⟨hname, rfl⟩ := Prod.mk.inj heq
        rw [hname, hchosen, Option.getD_some]
        exact (keepsShape_projectNode keepsShape_normalLeaf hshape field).text option
  intro offset after
  rw [readNode, List.append_assoc, reads_option hhead, ok_bind]
  dsimp only
  rw [readVariant_eq, hfields, reads_fields hread hrest, ok_bind]
  dsimp only
  rw [Entries.ofList_of_nodup hnames, Entries.insertAll_singleton _ _ hnames, hdiscriminator,
    List.length_append, ← Nat.add_assoc]
  rfl

/-! ### Whole nodes -/

/-- **What is written against a valid node is read back in normal form**, if this holds of what
is written at pointers. -/
theorem reads_node (hshape : ∀ name target, KeepsShape (followN name target))
    (hfollow : ∀ name target value bits, followW name target value = .ok bits →
      Reads (followR name target) bits (followN name target value))
    {node : Node} (hvalid : node.Valid) : ReadsBack followW followR followN node := by
  induction node with
  | bool name => exact readsBack_bool name
  | int name min max => exact readsBack_int name min max
  | fixed name min max precision => exact readsBack_fixed name min max precision
  | enumeration e => exact readsBack_enumeration e
  | optional name inner ih => exact readsBack_optional name (ih (Node.valid_optional_iff.1 hvalid))
  | array name minLength maxLength item ih =>
      exact readsBack_array name minLength maxLength (ih (Node.valid_array_iff.1 hvalid).2)
  | enumArray name minLength maxLength e => exact readsBack_enumArray name minLength maxLength e
  | object name fields ih =>
      obtain ⟨hnames, hfields⟩ := Node.valid_object_iff.1 hvalid
      exact readsBack_object name hnames fun field hfield => ih field hfield (hfields field hfield)
  | union name discriminator variants ih =>
      obtain ⟨-, -, hvariants⟩ := Node.valid_union_iff.1 hvalid
      refine readsBack_union name discriminator hshape fun entry hentry => ?_
      obtain ⟨hnames, hfields⟩ := hvariants entry hentry
      exact ⟨hnames, fun field hfield => ih entry hentry field hfield (hfields field hfield)⟩
  | pointer name target =>
      intro value bits h
      exact hfollow name target value bits h

end

/-- What is written at a pointer is read back, however many pointers are still to be followed. The
induction is on this number: a pointer is as its target with one less. -/
theorem reads_follow {scope : List Node} (hscope : ∀ field ∈ scope, field.Valid) (limit : Nat)
    {budget : Nat} {name target : String} {value : Value} {bits : Bits}
    (h : followWrite scope limit budget name target value = .ok bits) :
    Reads (followRead scope limit budget name target) bits
      (followProject normalLeaf scope budget name target value) := by
  induction budget generalizing name target value bits with
  | zero =>
      rw [followWrite] at h
      split at h <;> cases h
  | succ budget ih =>
      rw [followWrite] at h
      cases hnode : resolveTarget scope target with
      | none =>
          rw [hnode] at h
          cases h
      | some node =>
          rw [hnode] at h
          have hread := reads_node (keepsShape_followProject keepsShape_normalLeaf scope budget)
            (fun _ _ _ _ => ih) (valid_of_resolveTarget hscope hnode) value bits h
          intro offset rest
          rw [followRead, followProject, hnode]
          exact hread offset rest

/-- **An object is read back**, whatever fewer than eight bits are left over. -/
theorem readData_of_writeData {fields : List Node} (hnames : (fields.map Node.name).Nodup)
    (hvalid : ∀ field ∈ fields, field.Valid) {data : Value} {options : CodecOptions} {bits : Bits}
    (h : writeData fields data options.pointerDepth = .ok bits) (offset : Nat) {rest : Bits}
    (hrest : rest.length < 8) :
    readData fields options.pointerDepth ⟨offset, bits ++ rest⟩ =
      .ok (normalData fields data options) := by
  rw [writeData] at h
  split at h
  · cases h
  · next entries hentries =>
    have hfields := reads_fields (fun field hfield =>
      reads_node (keepsShape_followProject keepsShape_normalLeaf fields options.pointerDepth)
        (fun _ _ _ _ => reads_follow hvalid options.pointerDepth) (hvalid field hfield)) h
    have hkeys := @keys_projectFields normalLeaf
      (followProject normalLeaf fields options.pointerDepth) fields entries
    rw [readData, hfields, ok_bind]
    dsimp only
    rw [BitReader.remaining, if_neg (Nat.not_le.2 hrest),
      Entries.ofList_of_nodup (by rwa [hkeys]), normalData, projectData, hentries]
    rfl

/-- The octets of an object are read back.  Padding to whole octets adds fewer than eight bits,
which reading leaves over. -/
theorem unpackData_toBytes {fields : List Node} (hnames : (fields.map Node.name).Nodup)
    (hvalid : ∀ field ∈ fields, field.Valid) {data : Value} {options : CodecOptions} {bits : Bits}
    (h : writeData fields data options.pointerDepth = .ok bits) :
    unpackData fields (Bits.toBytes bits) options = .ok (normalData fields data options) := by
  obtain ⟨pad, hpad, hbytes⟩ := Bits.ofBytes_toBytes bits
  rw [unpackData, BitReader.ofBytes, hbytes]
  exact readData_of_writeData hnames hvalid h 0 (by rwa [List.length_replicate])

end Packing

end FieldGrammar
