import Mathlib
import FieldGrammar.Proofs.DataRoundTrip
import FieldGrammar.Proofs.FittingData

/-!
# Decoded data is canonical up to padding

Two octet strings that are read as the same data hold the same bits for the fields, and differ at
most in the padding after the last one.  Reading checks enough for that (offsets above a range,
unknown options, lengths above the greatest one, octets left over), as long as a schema leaves
nothing ambiguous: a field of a variant that is called like the discriminator, null inside an
optional field, or a grid on which steps do not come back from their values
(`Schema.Unambiguous`).

Data being the same is a matter of comparing values, which takes zeros of both signs for one number
and entries in any order.  So what the same data were read from is found in two steps: values that
were read against one node are equal if they are the same, and one value has been read from the
bits that it is written as.

## Main definitions

* `Schema.Unambiguous` — what a schema leaves to be told from the data
* `Packing.Separates` — values that are read against a node and are the same are equal
* `Packing.HoldsFields` — octets made of the bits of the fields and padding

## Main statements

* `Packing.separates_node`, `Packing.separates_follow` — nodes, and what pointers lead to
* `unpackData_canonical` — decoded data is packed to the same octets but for the padding
-/

namespace FieldGrammar

/-- A schema under which data tell the bits that they are read from: no field of a variant is
called like the discriminator, no optional field holds another one, directly or at a pointer, and
each step of a grid stands for a finite number that it comes back from. -/
structure Schema.Unambiguous (fields : List Node) : Prop where
  variants : ∀ m ∈ Node.walkList fields, m.DiscriminatorApart
  optionals : ∀ name inner, Node.optional name inner ∈ Node.walkList fields →
    inner.kind ≠ .optional ∧ ∀ pointer target, inner = .pointer pointer target →
      ∀ node, resolveTarget fields target = some node → node.kind ≠ .optional
  grids : ∀ name min max precision, Node.fixed name min max precision ∈ Node.walkList fields →
    ∀ k, (Grid.ofPrecision precision).stepsOf min ≤ k →
      k ≤ (Grid.ofPrecision precision).stepsOf max →
      ((Grid.ofPrecision precision).valueOf k).isFinite = true ∧
        (Grid.ofPrecision precision).stepsOf ((Grid.ofPrecision precision).valueOf k) = k

/-- The nodes of a valid and unambiguous schema are faithful.  Bounds in order are in order as
numbers of steps, so that a grid has the steps in between. -/
theorem Schema.Unambiguous.faithful {fields : List Node} (h : Schema.Unambiguous fields)
    (hvalid : ∀ field ∈ fields, field.Valid) : ∀ m ∈ Node.walkList fields, m.Faithful fields := by
  intro m hm
  cases m with
  | fixed name min max precision =>
      obtain ⟨field, hfield, hmem⟩ := Node.mem_walkList.1 hm
      obtain ⟨⟨hmin, hmax, hprecision⟩, hle, hpos⟩ :=
        Node.valid_fixed_iff.1 ((hvalid field hfield).of_mem_walk hmem)
      exact ⟨Grid.stepsOf_le_of_not_lt hprecision hpos hmin hmax hle,
        h.grids name min max precision hm⟩
  | optional name inner => exact h.optionals name inner hm
  | union => exact h.variants _ hm
  | bool | int | enumeration | array | enumArray | object | pointer => trivial

namespace Value

/-- Lists are equal if they are the same and members that are the same are equal. -/
theorem eq_of_sameList {items items' : List Value}
    (h : ∀ item ∈ items, ∀ item' ∈ items', same item item' = true → item = item')
    (hsame : sameList items items' = true) : items = items' := by
  induction items generalizing items' with
  | nil =>
      cases items' with
      | nil => rfl
      | cons => cases hsame
  | cons item rest ih =>
      cases items' with
      | nil => cases hsame
      | cons item' rest' =>
          rw [sameList, Bool.and_eq_true] at hsame
          rw [h item List.mem_cons_self item' List.mem_cons_self hsame.1,
            ih (fun a ha b hb => h a (List.mem_cons_of_mem _ ha) b (List.mem_cons_of_mem _ hb))
              hsame.2]

theorem eq_null_of_null_same {value : Value} (h : same .null value = true) : value = .null := by
  cases value with
  | null => rfl
  | bool | int | fixed | string | array | object => cases h

theorem eq_null_of_same_null {value : Value} (h : same value .null = true) : value = .null := by
  cases value with
  | null => rfl
  | bool | int | fixed | string | array | object => cases h

end Value

namespace Packing

section

variable {follow : ReadPointer}

/-! ### Values that are the same -/

/-- Values that are read against the node and are the same are equal.  Sameness is coarser than
equality in general: it takes entries in any order, and zeros of both signs for one number. -/
def Separates (follow : ReadPointer) (node : Node) : Prop :=
  ∀ value value', Readable follow node value → Readable follow node value' →
    Value.same value value' = true → value = value'

theorem separates_bool (name : String) : Separates follow (.bool name) := by
  rintro value value' ⟨r, r', h⟩ ⟨s, s', h'⟩ hsame
  obtain ⟨bit, -, rfl⟩ := readNode_bool_eq_ok_iff.1 h
  obtain ⟨bit', -, rfl⟩ := readNode_bool_eq_ok_iff.1 h'
  rw [Value.same, beq_iff_eq] at hsame
  rw [hsame]

/-- Integers that are the same are equal, and so are Booleans and options.  Numbers with a point are
where the grid is needed. -/
theorem separates_int (name : String) (min max : Int64) :
    Separates follow (.int name min max) := by
  intro value value' hvalue hvalue' hsame
  obtain ⟨n, rfl⟩ := exists_int_of_readable hvalue
  obtain ⟨n', rfl⟩ := exists_int_of_readable hvalue'
  rw [Value.same, beq_iff_eq] at hsame
  rw [hsame]

/-- Equal numbers of a grid whose steps come back are one step, and so they are one number. -/
theorem separates_fixed {name : String} {min max precision : Float} {scope : List Node}
    (hvalid : (Node.fixed name min max precision).Valid)
    (hfaithful : (Node.fixed name min max precision).Faithful scope) :
    Separates follow (.fixed name min max precision) := by
  obtain ⟨⟨-, -, hprecision⟩, -, hpos⟩ := Node.valid_fixed_iff.1 hvalid
  obtain ⟨hle, hsteps⟩ := hfaithful
  rintro value value' ⟨r, r', h⟩ ⟨s, s', h'⟩ hsame
  obtain ⟨k, hread, rfl⟩ := readNode_fixed_eq_ok_iff.1 h
  obtain ⟨k', hread', rfl⟩ := readNode_fixed_eq_ok_iff.1 h'
  obtain ⟨⟨hmin, hmax⟩, -⟩ := offset_of_readOffset hle hread
  obtain ⟨⟨hmin', hmax'⟩, -⟩ := offset_of_readOffset hle hread'
  obtain ⟨hfinite, hstable⟩ := hsteps k hmin hmax
  obtain ⟨-, hstable'⟩ := hsteps k' hmin' hmax'
  -- Zeros of both signs are equal numbers too, so it is the steps that have to be compared.
  have heq : k = k' := by
    rw [← hstable, ← hstable']
    exact Grid.stepsOf_congr hprecision hpos hfinite hsame
  rw [heq]

theorem separates_enumeration (e : Enumeration) : Separates follow (.enumeration e) := by
  rintro value value' ⟨r, r', h⟩ ⟨s, s', h'⟩ hsame
  obtain ⟨option, -, rfl⟩ := readNode_enumeration_eq_ok_iff.1 h
  obtain ⟨option', -, rfl⟩ := readNode_enumeration_eq_ok_iff.1 h'
  rw [Value.same, beq_iff_eq] at hsame
  rw [hsame]

/-- Null is the same as null alone, whether it was read inside or not. -/
theorem separates_optional (name : String) {inner : Node} (hinner : Separates follow inner) :
    Separates follow (.optional name inner) := by
  rintro value value' ⟨r, r', h⟩ ⟨s, s', h'⟩ hsame
  obtain ⟨_, t, -, ⟨-, hvalue⟩ | ⟨-, rfl, -⟩⟩ := readNode_optional_eq_ok_iff.1 h
  · obtain ⟨_, t', -, ⟨-, hvalue'⟩ | ⟨-, rfl, -⟩⟩ := readNode_optional_eq_ok_iff.1 h'
    · exact hinner value value' ⟨t, r', hvalue⟩ ⟨t', s', hvalue'⟩ hsame
    · exact Value.eq_null_of_same_null hsame
  · exact (Value.eq_null_of_null_same hsame).symm

/-- Arrays are the same when they are item by item, and the items are read against one node. -/
theorem separates_array (name : String) (minLength maxLength : UInt32) {item : Node}
    (hitem : Separates follow item) :
    Separates follow (.array name minLength maxLength item) := by
  intro value value' hvalue hvalue' hsame
  obtain ⟨items, rfl, hitems⟩ := exists_array_of_readable hvalue
  obtain ⟨items', rfl, hitems'⟩ := exists_array_of_readable hvalue'
  rw [Value.same] at hsame
  rw [Value.eq_of_sameList (fun element helement element' helement' =>
    hitem element element' (hitems element helement) (hitems' element' helement')) hsame]

/-- Arrays of options likewise; texts that are the same are equal. -/
theorem separates_enumArray (name : String) (minLength maxLength : UInt32) (e : Enumeration) :
    Separates follow (.enumArray name minLength maxLength e) := by
  rintro value value' ⟨r, r', h⟩ ⟨s, s', h'⟩ hsame
  obtain ⟨_, _, options, -, -, rfl⟩ := readNode_enumArray_eq_ok_iff.1 h
  obtain ⟨_, _, options', -, -, rfl⟩ := readNode_enumArray_eq_ok_iff.1 h'
  rw [Value.same] at hsame
  refine congrArg Value.array (Value.eq_of_sameList ?_ hsame)
  intro item hitem item' hitem' hsame
  obtain ⟨option, -, rfl⟩ := List.mem_map.1 hitem
  obtain ⟨option', -, rfl⟩ := List.mem_map.1 hitem'
  rw [Value.same, beq_iff_eq] at hsame
  rw [hsame]

/-- Fields that were read are equal if each of them finds the same value among the others.  Both
lists have the names of the fields in one order, so what finds one another stands side by side. -/
theorem eq_of_sameFields {fields : List Node} (hfields : ∀ field ∈ fields, Separates follow field)
    {pairs pairs' : List (String × Value)} (hpairs : ReadableFields follow fields pairs)
    (hpairs' : ReadableFields follow fields pairs') {entries : Entries Value}
    (hsame : ∀ pair ∈ pairs, ∃ value, Entries.get? entries pair.1 = some value ∧
      Value.same pair.2 value = true)
    (hentries : ∀ pair ∈ pairs', Entries.get? entries pair.1 = some pair.2) : pairs = pairs' := by
  induction fields generalizing pairs pairs' with
  | nil => rw [hpairs.nil, hpairs'.nil]
  | cons field rest ih =>
      obtain ⟨value, more, rfl, hvalue, hmore⟩ := hpairs.cons
      obtain ⟨value', more', rfl, hvalue', hmore'⟩ := hpairs'.cons
      obtain ⟨hfield, hrest⟩ := List.forall_mem_cons.1 hfields
      obtain ⟨⟨found, hfound, hfirst⟩, hsame⟩ := List.forall_mem_cons.1 hsame
      obtain ⟨hget, hentries⟩ := List.forall_mem_cons.1 hentries
      rw [hget, Option.some.injEq] at hfound
      subst hfound
      rw [hfield value value' hvalue hvalue' hfirst, ih hrest hmore hmore' hsame hentries]

/-- Objects are the same when they have the same values under the names of the fields, which are
distinct and come in one order. -/
theorem separates_object (name : String) {fields : List Node}
    (hnames : (fields.map Node.name).Nodup)
    (hfields : ∀ field ∈ fields, Separates follow field) :
    Separates follow (.object name fields) := by
  intro value value' hvalue hvalue' hsame
  obtain ⟨pairs, rfl, hpairs⟩ := exists_object_of_readable hvalue
  obtain ⟨pairs', rfl, hpairs'⟩ := exists_object_of_readable hvalue'
  have hkeys : (Entries.keys pairs).Nodup := by rwa [hpairs.keys_eq]
  have hkeys' : (Entries.keys pairs').Nodup := by rwa [hpairs'.keys_eq]
  rw [Entries.ofList_of_nodup hkeys, Entries.ofList_of_nodup hkeys'] at hsame ⊢
  rw [Value.same, Bool.and_eq_true, Value.sameEntries_iff] at hsame
  rw [eq_of_sameFields hfields hpairs hpairs' hsame.2 fun pair hpair =>
    (Entries.get?_eq_some_iff hkeys').2 hpair]

/-- The option is the same, so that both objects are of one variant.  The discriminator is not
hidden by a field of the variant, and that is where the option is found. -/
theorem separates_union (name : String) {discriminator : Enumeration}
    {variants : Entries (List Node)}
    (hvariants : ∀ entry ∈ variants, (entry.2.map Node.name).Nodup ∧
      discriminator.name ∉ entry.2.map Node.name)
    (hfields : ∀ entry ∈ variants, ∀ field ∈ entry.2, Separates follow field) :
    Separates follow (.union name discriminator variants) := by
  rintro value value' ⟨r, r', h⟩ ⟨s, s', h'⟩ hsame
  obtain ⟨option, _, pairs, entries, -, hpairs, heq, rfl, -, -⟩ :=
    exists_entries_of_readNode_union hvariants h
  obtain ⟨option', _, pairs', entries', -, hpairs', heq', rfl, hchosen', hentries'⟩ :=
    exists_entries_of_readNode_union hvariants h'
  rw [Value.same, Bool.and_eq_true, Value.sameEntries_iff, heq, List.forall_mem_cons] at hsame
  obtain ⟨-, ⟨found, hfound, hoption⟩, hsame⟩ := hsame
  dsimp only at hfound hoption
  rw [Entries.getOrNull, hfound, Option.getD_some] at hchosen'
  rw [hchosen', Value.same, beq_iff_eq] at hoption
  subst hoption
  rw [heq, heq', eq_of_sameFields (Entries.forall_mem_getD hfields option)
    (readableFields_of_readFields hpairs) (readableFields_of_readFields hpairs') hsame hentries']

/-! ### Whole nodes -/

/-- **Values that are read against a valid and faithful node are equal if they are the same**, if
this holds of what is read at pointers. -/
theorem separates_node {scope : List Node}
    (hfollow : ∀ name target, Separates follow (.pointer name target)) {node : Node}
    (hvalid : node.Valid) (hfaithful : ∀ m ∈ node.walk, m.Faithful scope) :
    Separates follow node := by
  induction node using Node.induction_children with
  | step node ih =>
      have hchildren : ∀ child ∈ node.children, Separates follow child := fun child hchild =>
        ih child hchild ((Node.valid_iff.1 hvalid).2 child hchild)
          ((Node.forall_mem_walk_iff.1 hfaithful).2 child hchild)
      have hself := hfaithful _ (Node.mem_walk_self _)
      cases node with
      | bool name => exact separates_bool name
      | int name min max => exact separates_int name min max
      | fixed => exact separates_fixed hvalid hself
      | enumeration e => exact separates_enumeration e
      | optional name inner =>
          exact separates_optional name (hchildren inner (List.mem_singleton_self inner))
      | array name minLength maxLength item =>
          exact separates_array name minLength maxLength
            (hchildren item (List.mem_singleton_self item))
      | enumArray name minLength maxLength e =>
          exact separates_enumArray name minLength maxLength e
      | object name fields =>
          exact separates_object name (Node.valid_object_iff.1 hvalid).1 hchildren
      | union name discriminator variants =>
          obtain ⟨-, -, hvariants⟩ := Node.valid_union_iff.1 hvalid
          exact separates_union name
            (fun entry hentry => ⟨(hvariants entry hentry).1, hself entry hentry⟩)
            (Node.forall_variants_of_children hvalid hchildren)
      | pointer name target => exact hfollow name target

end

/-- Values that are read at a pointer are equal if they are the same, however many pointers are
still to be followed. -/
theorem separates_follow {scope : List Node} (hscope : ∀ field ∈ scope, field.Valid)
    (hfaithful : ∀ m ∈ Node.walkList scope, m.Faithful scope) (limit budget : Nat)
    (name target : String) :
    Separates (followRead scope limit budget) (.pointer name target) := by
  -- On the pointers that may still be followed; both values were read with as many of them.
  induction budget generalizing name target with
  | zero =>
      intro value value' hvalue
      obtain ⟨rest, node, hrest, -⟩ := exists_of_readable_pointer hvalue
      cases hrest
  | succ budget ih =>
      intro value value' hvalue hvalue'
      obtain ⟨_, node, ⟨⟩, hnode, hvalue⟩ := exists_of_readable_pointer hvalue
      obtain ⟨_, node', ⟨⟩, hnode', hvalue'⟩ := exists_of_readable_pointer hvalue'
      obtain rfl : node = node' := Option.some.inj (hnode.symm.trans hnode')
      have hwalk : node.walk ⊆ Node.walkList scope :=
        Node.walk_subset_walkList (resolveTarget_some hnode).2.2
      exact separates_node ih (valid_of_resolveTarget hscope hnode)
        (fun m hm => hfaithful m (hwalk hm)) value value' hvalue hvalue'

end Packing

open Packing

/-! ### Whole data -/

/-- The octets are these bits, which the fields are read from, and this padding after the last
field. The fields determine how many bits they take, so there is one such decomposition. -/
structure Packing.HoldsFields (fields : List Node) (options : CodecOptions) (bytes : List UInt8)
    (bits padding : Bits) : Prop where
  ofBytes_eq : Bits.ofBytes bytes = bits ++ padding
  read : ∃ pairs, readFields (followRead fields options.pointerDepth options.pointerDepth) fields
    (BitReader.ofBytes bytes) = .ok (pairs, ⟨bits.length, padding⟩)

section

variable {fields : List Node} {options : CodecOptions} {bytes bytes' : List UInt8}
  {data data' : Value} {bits bits' padding padding' : Bits}

/-- Octets are divided into fields and padding in one way. -/
theorem Packing.HoldsFields.unique (h : HoldsFields fields options bytes bits padding)
    (h' : HoldsFields fields options bytes bits' padding') : bits = bits' ∧ padding = padding' := by
  obtain ⟨heq, pairs, hread⟩ := h
  obtain ⟨heq', pairs', hread'⟩ := h'
  rw [hread, Except.ok.injEq, Prod.mk.injEq, BitReader.mk.injEq] at hread'
  obtain ⟨-, -, rfl⟩ := hread'
  rw [heq'] at heq
  exact ⟨(List.append_cancel_right heq).symm, rfl⟩

/-- The number of octets is that of the bits and the padding. -/
theorem Packing.HoldsFields.length_eq (h : HoldsFields fields options bytes bits padding) :
    bits.length + padding.length = 8 * bytes.length := by
  rw [← List.length_append, ← h.ofBytes_eq, Bits.length_ofBytes]

/-- Octets with the same bits for the fields are as many, and have as much padding. -/
theorem Packing.HoldsFields.length_padding_eq (h : HoldsFields fields options bytes bits padding)
    (h' : HoldsFields fields options bytes' bits padding') (hlt : padding.length < 8)
    (hlt' : padding'.length < 8) : padding.length = padding'.length := by
  have hlength := h.length_eq
  have hlength' := h'.length_eq
  omega

/-- Octets that were unpacked hold the bits that the data is written as. -/
theorem exists_holdsFields_of_unpackData (hnames : (fields.map Node.name).Nodup)
    (hvalid : ∀ field ∈ fields, field.Valid)
    (hfaithful : ∀ m ∈ Node.walkList fields, m.Faithful fields)
    (h : unpackData fields bytes options = .ok data) :
    ∃ bits padding, HoldsFields fields options bytes bits padding ∧ padding.length < 8 ∧
      writeData fields data options.pointerDepth = .ok bits := by
  obtain ⟨bits, pairs, ⟨offset, padding⟩, hwrite, hread, ⟨hrest, hoffset⟩, hremaining⟩ :=
    writeData_of_readData hnames hvalid hfaithful h
  dsimp only [BitReader.ofBytes] at hrest hoffset
  rw [Nat.zero_add] at hoffset
  subst hoffset
  exact ⟨bits, padding, ⟨hrest, pairs, hread⟩, hremaining, hwrite⟩

/-- Data that are unpacked and are the same are equal, as objects of the fields of the schema. -/
theorem eq_of_same_of_unpackData (hnames : (fields.map Node.name).Nodup)
    (hvalid : ∀ field ∈ fields, field.Valid)
    (hfaithful : ∀ m ∈ Node.walkList fields, m.Faithful fields)
    (h : unpackData fields bytes options = .ok data)
    (h' : unpackData fields bytes' options = .ok data') (hsame : Value.same data data' = true) :
    data = data' := by
  have hfields : ∀ field ∈ fields,
      Separates (followRead fields options.pointerDepth options.pointerDepth) field :=
    fun field hfield => separates_node
      (separates_follow hvalid hfaithful options.pointerDepth options.pointerDepth)
      (hvalid field hfield) fun m hm => hfaithful m (Node.mem_walkList.2 ⟨field, hfield, hm⟩)
  obtain ⟨pairs, r, hpairs, -, hdata⟩ := readData_eq_ok_iff.1 h
  obtain ⟨pairs', r', hpairs', -, hdata'⟩ := readData_eq_ok_iff.1 h'
  -- Data are read like an object, whose name has no influence.
  exact separates_object "" hnames hfields data data'
    ⟨_, r, readNode_object_eq_ok_iff.2 ⟨pairs, hpairs, hdata⟩⟩
    ⟨_, r', readNode_object_eq_ok_iff.2 ⟨pairs', hpairs', hdata'⟩⟩ hsame

/-- Octets that hold the same bits for the fields are unpacked as the same data. -/
theorem eq_of_holdsFields (hnames : (fields.map Node.name).Nodup)
    (hvalid : ∀ field ∈ fields, field.Valid)
    (hfaithful : ∀ m ∈ Node.walkList fields, m.Faithful fields)
    (h : unpackData fields bytes options = .ok data)
    (h' : unpackData fields bytes' options = .ok data')
    (hholds : HoldsFields fields options bytes bits padding)
    (hholds' : HoldsFields fields options bytes' bits padding') (hlt : padding'.length < 8) :
    data = data' := by
  obtain ⟨bits₁, padding₁, hholds₁, -, hwrite⟩ :=
    exists_holdsFields_of_unpackData hnames hvalid hfaithful h
  obtain ⟨rfl, -⟩ := hholds.unique hholds₁
  obtain ⟨-, hnormal⟩ := normalData_of_unpackData hnames hvalid hfaithful h
  rw [unpackData, BitReader.ofBytes, hholds'.ofBytes_eq,
    readData_of_writeData hnames hvalid hwrite 0 hlt, hnormal] at h'
  exact Except.ok.inj h'

end

/-- **Decoded data is canonical up to padding.**  Data that octets were unpacked as is packed to as
many octets, which hold the same bits for the fields and zeros for the padding after the last one.
So two octet strings are unpacked as the same data just when they differ in that padding alone. Each
of the conditions on the schema rules out one way in which two bit strings give the same data. -/
theorem unpackData_canonical {name : String} {fields : List Node}
    (hvalid : Schema.validate ⟨name, fields⟩ = .ok ()) (hclear : Schema.Unambiguous fields)
    (options : CodecOptions) :
    (∀ bytes data, unpackData fields bytes options = .ok data →
      ∃ bits padding again, HoldsFields fields options bytes bits padding ∧ padding.length < 8 ∧
        packData fields data options = .ok again ∧ again.length = bytes.length ∧
        Bits.ofBytes again = bits ++ List.replicate padding.length false) ∧
    (∀ bytes bytes' data data', unpackData fields bytes options = .ok data →
      unpackData fields bytes' options = .ok data' →
      (Value.same data data' = true ↔
        ∃ bits padding padding', HoldsFields fields options bytes bits padding ∧
          HoldsFields fields options bytes' bits padding' ∧
          padding.length = padding'.length ∧ padding.length < 8)) := by
  obtain ⟨hnames, hfields⟩ := Schema.validate_eq_ok_iff.1 hvalid
  have hfaithful := hclear.faithful hfields
  constructor
  · intro bytes data h
    obtain ⟨bits, padding, hholds, hlt, hwrite⟩ :=
      exists_holdsFields_of_unpackData hnames hfields hfaithful h
    -- Both paddings are shorter than an octet and fill up the same bits, so they are as long.
    obtain ⟨pad, hpad, hagain⟩ := Bits.ofBytes_toBytes bits
    have hlength := hholds.length_eq
    have hlength' := congrArg List.length hagain
    rw [Bits.length_ofBytes, List.length_append, List.length_replicate] at hlength'
    refine ⟨bits, padding, Bits.toBytes bits, hholds, hlt,
      packData_eq_ok_iff.2 ⟨bits, hwrite, rfl⟩, by omega, ?_⟩
    rw [hagain, show pad = padding.length by omega]
  · intro bytes bytes' data data' h h'
    constructor
    · intro hsame
      obtain rfl := eq_of_same_of_unpackData hnames hfields hfaithful h h' hsame
      obtain ⟨bits, padding, hholds, hlt, hwrite⟩ :=
        exists_holdsFields_of_unpackData hnames hfields hfaithful h
      obtain ⟨bits', padding', hholds', hlt', hwrite'⟩ :=
        exists_holdsFields_of_unpackData hnames hfields hfaithful h'
      rw [hwrite, Except.ok.injEq] at hwrite'
      subst hwrite'
      exact ⟨bits, padding, padding', hholds, hholds',
        hholds.length_padding_eq hholds' hlt hlt', hlt⟩
    · rintro ⟨bits, padding, padding', hholds, hholds', hlength, hlt⟩
      obtain rfl := eq_of_holdsFields hnames hfields hfaithful h h' hholds hholds' (hlength ▸ hlt)
      obtain ⟨⟨bits, hwrite⟩, hnormal⟩ := normalData_of_unpackData hnames hfields hfaithful h
      have hself := same_normalData hnames hfields hwrite
      rwa [hnormal] at hself

/-- Dots on a line, and links to other shapes.  The schema has a variant that leads back to it, an
optional field and a number with a point. -/
def dotFields : List Node :=
  [.union "shape" ⟨"kind", ["dot", "link"]⟩
    [("dot", [.fixed "x" 0.0 1.0 0.5]),
      ("link", [.optional "next" (.pointer "to" "shape")])]]

/-- The walk of the dots, which the three conditions of `Schema.Unambiguous` are tested on. -/
theorem walkList_dotFields : Node.walkList dotFields =
    [.union "shape" ⟨"kind", ["dot", "link"]⟩
        [("dot", [.fixed "x" 0.0 1.0 0.5]),
          ("link", [.optional "next" (.pointer "to" "shape")])],
      .fixed "x" 0.0 1.0 0.5, .optional "next" (.pointer "to" "shape"), .pointer "to" "shape"] :=
  rfl

/-- No shape is optional, and halves between zero and one come back from their values.  So each of
the three conditions has something to say here. -/
theorem unambiguous_dotFields : Schema.Unambiguous dotFields where
  variants := by decide
  optionals := by
    intro name inner hmem
    obtain ⟨rfl, rfl⟩ : name = "next" ∧ inner = .pointer "to" "shape" := by
      simpa only [walkList_dotFields, List.mem_cons, List.not_mem_nil, reduceCtorEq, false_or,
        or_false, Node.optional.injEq] using hmem
    refine ⟨by decide, fun pointer target heq node hnode => ?_⟩
    cases heq
    cases hnode
    decide
  grids := by
    intro name min max precision hmem k hmin hmax
    obtain ⟨rfl, rfl, rfl, rfl⟩ : name = "x" ∧ min = 0.0 ∧ max = 1.0 ∧ precision = 0.5 := by
      simpa only [walkList_dotFields, List.mem_cons, List.not_mem_nil, reduceCtorEq, false_or,
        or_false, Node.fixed.injEq] using hmem
    have hlow : (Grid.ofPrecision 0.5).stepsOf 0.0 = 0 := by decide +kernel
    have hhigh : (Grid.ofPrecision 0.5).stepsOf 1.0 = 2 := by decide +kernel
    rw [hlow, Int64.le_iff_toInt_le] at hmin
    rw [hhigh, Int64.le_iff_toInt_le] at hmax
    have hzero : (0 : Int64).toInt = 0 := rfl
    have hone : (1 : Int64).toInt = 1 := rfl
    have htwo : (2 : Int64).toInt = 2 := rfl
    obtain rfl | rfl | rfl : k = 0 ∨ k = 1 ∨ k = 2 := by
      rw [← Int64.toInt_inj, ← Int64.toInt_inj, ← Int64.toInt_inj]
      omega
    · exact ⟨by decide +kernel, by decide +kernel⟩
    · exact ⟨by decide +kernel, by decide +kernel⟩
    · exact ⟨by decide +kernel, by decide +kernel⟩

/-- The dots are unambiguous, although a variant leads back to the union.  An octet whose padding is
not zero is read as the same data as the one that packing gives. -/
theorem unpackData_canonical_dots :
    Schema.validate ⟨"dots", dotFields⟩ = .ok () ∧ Schema.Unambiguous dotFields ∧
    ∃ data bits padding, unpackData dotFields [0b11001101] {} = .ok data ∧
      HoldsFields dotFields {} [0b11001101] bits padding ∧ padding.length < 8 ∧
      packData dotFields data {} = .ok [0b11001000] ∧
      Bits.ofBytes [0b11001000] = bits ++ List.replicate padding.length false ∧
      ∀ bytes', unpackData dotFields bytes' {} = .ok data →
        ∃ padding', HoldsFields dotFields {} bytes' bits padding' ∧ padding'.length < 8 := by
  have hvalid : Schema.validate ⟨"dots", dotFields⟩ = .ok () := rfl
  obtain ⟨hagain, hsame⟩ := unpackData_canonical hvalid unambiguous_dotFields {}
  have hround : (unpackData dotFields [0b11001101] {} >>= fun data =>
      packData dotFields data {}) = .ok [0b11001000] := eq_ok_of_toOption (by decide +kernel)
  obtain ⟨data, hdata, hpack⟩ := bind_eq_ok_iff.1 hround
  obtain ⟨bits, padding, again, hholds, hlt, hpack', -, hbits⟩ := hagain _ data hdata
  obtain rfl : [0b11001000] = again := Except.ok.inj (hpack.symm.trans hpack')
  refine ⟨hvalid, unambiguous_dotFields, data, bits, padding, hdata, hholds, hlt, hpack, hbits, ?_⟩
  intro bytes' hdata'
  have hself : Value.same data data = true := (hsame _ _ data data hdata hdata).2
    ⟨bits, padding, padding, hholds, hholds, rfl, hlt⟩
  obtain ⟨bits', padding₁, padding', hholds₁, hholds', hlength, hlt'⟩ :=
    (hsame _ bytes' data data hdata hdata').1 hself
  obtain ⟨rfl, rfl⟩ := hholds.unique hholds₁
  exact ⟨padding', hholds', hlength ▸ hlt'⟩

end FieldGrammar
