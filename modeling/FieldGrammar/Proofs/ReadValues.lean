import Mathlib
import FieldGrammar.Proofs.Lookup
import FieldGrammar.Proofs.Octets
import FieldGrammar.Proofs.Reading

/-!
# What a successful read has done

Reading goes forward through a bit string, so a read that succeeded has consumed some bits
(`BitReader.Consumes`).  This module takes a successful read apart: the bits of a number, an
option, a length or an offset are the ones that writing it produces, and reading a node has read
its parts, one after the other.

## Main definitions

* `BitReader.Consumes` — the bits between two positions
* `Packing.Readable` — a value that some bits are read as

## Main statements

* `Packing.writeOption_of_readOption`, `Packing.writeLength_of_readLength`,
  `Packing.offset_of_readOffset` — the bits of the parts of a value
* `Packing.readNode_int_eq_ok_iff` and its companions — reading a node of each kind
-/

namespace FieldGrammar

namespace BitReader

/-! ### Consumed bits -/

/-- Between `r` and the later `r'` are these bits. -/
def Consumes (r : BitReader) (bits : Bits) (r' : BitReader) : Prop :=
  r.rest = bits ++ r'.rest ∧ r'.offset = r.offset + bits.length

theorem Consumes.nil (r : BitReader) : r.Consumes [] r :=
  ⟨rfl, rfl⟩

/-- Bits that are consumed one after the other. -/
theorem Consumes.append {r s t : BitReader} {xs ys : Bits} (hxs : r.Consumes xs s)
    (hys : s.Consumes ys t) : r.Consumes (xs ++ ys) t := by
  obtain ⟨hrest, hoffset⟩ := hxs
  obtain ⟨hrest', hoffset'⟩ := hys
  refine ⟨by rw [hrest, hrest', List.append_assoc], ?_⟩
  rw [hoffset', hoffset, List.length_append, Nat.add_assoc]

/-- Reading a number consumes the bits that write it in this width. -/
theorem consumes_of_read {r r' : BitReader} {n k : Nat} (h : r.read n = .ok (k, r')) :
    r.Consumes (Bits.ofNat n k) r' := by
  rw [read] at h
  split at h
  · next taken rest hsplit =>
    cases h
    obtain ⟨hrest, rfl⟩ := Bits.splitAt?_eq_some_iff.1 hsplit
    rw [Bits.ofNat_toNat]
    exact ⟨hrest, rfl⟩
  · cases h

/-- A number that is read in some bits has no more bits. -/
theorem lt_of_read {r r' : BitReader} {n k : Nat} (h : r.read n = .ok (k, r')) : k < 2 ^ n := by
  rw [read] at h
  split at h
  · next taken rest hsplit =>
    cases h
    obtain ⟨-, rfl⟩ := Bits.splitAt?_eq_some_iff.1 hsplit
    exact Bits.toNat_lt taken
  · cases h

variable {α : Type} {step : BitReader → Except Error (α × BitReader)}

/-- Items that were read were read one by one. -/
theorem mem_of_repeated {n : Nat} {r r' : BitReader} {items : List α}
    (h : repeated step n r = .ok (items, r')) :
    items.length = n ∧ ∀ item ∈ items, ∃ s s', step s = .ok (item, s') := by
  induction n generalizing r items with
  | zero =>
      cases h
      exact ⟨rfl, by simp⟩
  | succ n ih =>
      rw [repeated_succ, bind_eq_ok_iff] at h
      obtain ⟨⟨first, s⟩, hfirst, h⟩ := h
      obtain ⟨⟨rest, s'⟩, hrest, h⟩ := bind_eq_ok_iff.1 h
      cases h
      obtain ⟨hlength, hitems⟩ := ih hrest
      exact ⟨by rw [List.length_cons, hlength], List.forall_mem_cons.2 ⟨⟨r, s, hfirst⟩, hitems⟩⟩

end BitReader

namespace Packing

/-! ### Parts of a value -/

/-- An option that was read is written as the consumed bits, if options are distinct.  Otherwise the
index that is written may be that of an earlier place. -/
theorem writeOption_of_readOption {e : Enumeration} (hnodup : e.options.Nodup)
    {r r' : BitReader} {option : String} (h : readOption e r = .ok (option, r')) :
    ∃ bits, writeOption e (.string option) = .ok (option, bits) ∧ r.Consumes bits r' := by
  rw [readOption, bind_eq_ok_iff] at h
  obtain ⟨⟨index, s⟩, hread, h⟩ := h
  dsimp only at h
  split at h
  · next found hfound =>
    cases h
    obtain ⟨hlt, rfl⟩ := List.getElem?_eq_some_iff.1 hfound
    have hindex : e.indexOf? e.options[index] = some index := by
      refine List.idxOf?_eq_some_iff.2 ⟨hlt, rfl, fun j hj heq => ?_⟩
      exact hj.ne (hnodup.getElem_inj_iff.1 heq)
    exact ⟨_, writeOption_eq_ok_iff.2 ⟨rfl, index, hindex, rfl⟩, BitReader.consumes_of_read hread⟩
  · cases h

/-- Only options of an enumeration are read. -/
theorem mem_of_readOption {e : Enumeration} {r r' : BitReader} {option : String}
    (h : readOption e r = .ok (option, r')) : option ∈ e.options := by
  rw [readOption, bind_eq_ok_iff] at h
  obtain ⟨⟨index, s⟩, -, h⟩ := h
  dsimp only at h
  split at h
  · next found hfound =>
    cases h
    exact List.mem_of_getElem? hfound
  · cases h

/-- A length that was read is written as the consumed bits. -/
theorem writeLength_of_readLength {name : String} {minLength maxLength : UInt32}
    {r r' : BitReader} {length : Nat}
    (h : readLength name minLength maxLength r = .ok (length, r')) :
    ∃ bits, writeLength name length minLength maxLength = .ok bits ∧ r.Consumes bits r' := by
  rw [readLength, bind_eq_ok_iff] at h
  obtain ⟨⟨offset, s⟩, hread, h⟩ := h
  dsimp only at h
  split at h
  · cases h
  · next hlt =>
    cases h
    refine ⟨_, writeLength_eq_ok_iff.2 ⟨⟨by omega, by omega⟩, rfl⟩, ?_⟩
    rw [Nat.add_sub_cancel_left]
    exact BitReader.consumes_of_read hread

/-- Within the range, the number at an offset is exact. -/
theorem toInt_advance {low high : Int64} (hle : low ≤ high) {offset : Nat}
    (h : offset ≤ distance low high) : (advance low offset).toInt = low.toInt + offset := by
  have hdistance := distance_of_le (Int64.le_iff_toInt_le.1 hle)
  have hlow := Int64.le_toInt low
  have hhigh := Int64.toInt_lt high
  exact Int64.toInt_ofInt_of_le (by omega) (by omega)

/-- An offset that was read belongs to a number between the bounds, and writing that number
produces the consumed bits. -/
theorem offset_of_readOffset {name : String} {low high n : Int64} (hle : low ≤ high)
    {r r' : BitReader} (h : readOffset name low high r = .ok (n, r')) :
    (low ≤ n ∧ n ≤ high) ∧
      r.Consumes (Bits.ofNat (Bits.width (distance low high)) (distance low n)) r' := by
  rw [readOffset, bind_eq_ok_iff] at h
  obtain ⟨⟨offset, s⟩, hread, h⟩ := h
  dsimp only at h
  split at h
  · cases h
  · next hlt =>
    cases h
    have hadvance := toInt_advance hle (Nat.not_lt.1 hlt)
    have hdistance := distance_of_le (Int64.le_iff_toInt_le.1 hle)
    have hbounds : low.toInt ≤ (advance low offset).toInt := by omega
    have hoffset : distance low (advance low offset) = offset := by
      have hexact := distance_of_le hbounds
      omega
    rw [Int64.le_iff_toInt_le, Int64.le_iff_toInt_le, hoffset]
    exact ⟨⟨hbounds, by omega⟩, BitReader.consumes_of_read hread⟩

/-! ### Nodes -/

section

variable {follow : ReadPointer} {r r' : BitReader} {value : Value}

/-- A Boolean is read from one bit.  Here and below the equivalence opens the reader at one kind of
node; what the parts have read is left to the lemmas above. -/
theorem readNode_bool_eq_ok_iff {name : String} :
    readNode follow (.bool name) r = .ok (value, r') ↔
      ∃ bit, r.read 1 = .ok (bit, r') ∧ value = .bool (bit == 1) := by
  rw [readNode, bind_eq_ok_iff]
  constructor
  · rintro ⟨⟨bit, s⟩, hread, h⟩
    cases h
    exact ⟨bit, hread, rfl⟩
  · rintro ⟨bit, hread, rfl⟩
    exact ⟨_, hread, rfl⟩

theorem readNode_int_eq_ok_iff {name : String} {min max : Int64} :
    readNode follow (.int name min max) r = .ok (value, r') ↔
      ∃ n, readOffset name min max r = .ok (n, r') ∧ value = .int n := by
  rw [readNode, bind_eq_ok_iff]
  constructor
  · rintro ⟨⟨n, s⟩, hread, h⟩
    cases h
    exact ⟨n, hread, rfl⟩
  · rintro ⟨n, hread, rfl⟩
    exact ⟨_, hread, rfl⟩

/-- A number with a point is read as the one at a step between those of the bounds. -/
theorem readNode_fixed_eq_ok_iff {name : String} {min max precision : Float} :
    readNode follow (.fixed name min max precision) r = .ok (value, r') ↔
      ∃ k, readOffset name ((Grid.ofPrecision precision).stepsOf min)
          ((Grid.ofPrecision precision).stepsOf max) r = .ok (k, r') ∧
        value = .fixed ((Grid.ofPrecision precision).valueOf k) := by
  simp only [readNode, readFixed, bind_eq_ok_iff]
  constructor
  · rintro ⟨_, ⟨⟨k, s⟩, hread, hfixed⟩, h⟩
    cases hfixed
    cases h
    exact ⟨k, hread, rfl⟩
  · rintro ⟨k, hread, rfl⟩
    exact ⟨_, ⟨_, hread, rfl⟩, rfl⟩

/-- What is read as an enumeration is the text of the option that is read. -/
theorem readNode_enumeration_eq_ok_iff {e : Enumeration} :
    readNode follow (.enumeration e) r = .ok (value, r') ↔
      ∃ option, readOption e r = .ok (option, r') ∧ value = .string option := by
  rw [readNode, bind_eq_ok_iff]
  constructor
  · rintro ⟨⟨option, s⟩, hread, h⟩
    cases h
    exact ⟨option, hread, rfl⟩
  · rintro ⟨option, hread, rfl⟩
    exact ⟨_, hread, rfl⟩

/-- An optional value is null, or it is read after a bit that is one.  Where the inner node reads
null as well, the value does not tell the two apart. -/
theorem readNode_optional_eq_ok_iff {name : String} {inner : Node} :
    readNode follow (.optional name inner) r = .ok (value, r') ↔
      ∃ present s, r.read 1 = .ok (present, s) ∧
        ((present = 1 ∧ readNode follow inner s = .ok (value, r')) ∨
          (present ≠ 1 ∧ value = .null ∧ r' = s)) := by
  rw [readNode, bind_eq_ok_iff]
  constructor
  · rintro ⟨⟨present, s⟩, hread, h⟩
    dsimp only at h
    split at h
    · next hpresent => exact ⟨present, s, hread, .inl ⟨hpresent, h⟩⟩
    · next hpresent =>
      cases h
      exact ⟨present, r', hread, .inr ⟨hpresent, rfl, rfl⟩⟩
  · rintro ⟨present, s, hread, ⟨hpresent, h⟩ | ⟨hpresent, rfl, rfl⟩⟩
    · refine ⟨_, hread, ?_⟩
      dsimp only
      rw [if_pos hpresent, h]
    · refine ⟨_, hread, ?_⟩
      dsimp only
      rw [if_neg hpresent]
      rfl

/-- An array is read as its length and then this number of items, each where the one before it ends.
-/
theorem readNode_array_eq_ok_iff {name : String} {minLength maxLength : UInt32} {item : Node} :
    readNode follow (.array name minLength maxLength item) r = .ok (value, r') ↔
      ∃ length s items, readLength name minLength maxLength r = .ok (length, s) ∧
        BitReader.repeated (readNode follow item) length s = .ok (items, r') ∧
        value = .array items := by
  simp only [readNode, bind_eq_ok_iff]
  constructor
  · rintro ⟨⟨length, s⟩, hlength, ⟨items, t⟩, hitems, h⟩
    cases h
    exact ⟨length, s, items, hlength, hitems, rfl⟩
  · rintro ⟨length, s, items, hlength, hitems, rfl⟩
    exact ⟨_, hlength, _, hitems, rfl⟩

/-- An array of options is read like an array, with options for its items. -/
theorem readNode_enumArray_eq_ok_iff {name : String} {minLength maxLength : UInt32}
    {e : Enumeration} :
    readNode follow (.enumArray name minLength maxLength e) r = .ok (value, r') ↔
      ∃ length s options, readLength name minLength maxLength r = .ok (length, s) ∧
        BitReader.repeated (readOption e) length s = .ok (options, r') ∧
        value = .array (options.map .string) := by
  simp only [readNode, bind_eq_ok_iff]
  constructor
  · rintro ⟨⟨length, s⟩, hlength, ⟨options, t⟩, hoptions, h⟩
    cases h
    exact ⟨length, s, options, hlength, hoptions, rfl⟩
  · rintro ⟨length, s, options, hlength, hoptions, rfl⟩
    exact ⟨_, hlength, _, hoptions, rfl⟩

/-- An object is read as the pairs of its fields.  Of two pairs with one name, the object keeps the
later value at the earlier place. -/
theorem readNode_object_eq_ok_iff {name : String} {fields : List Node} :
    readNode follow (.object name fields) r = .ok (value, r') ↔
      ∃ pairs, readFields follow fields r = .ok (pairs, r') ∧
        value = .object (Entries.ofList pairs) := by
  rw [readNode, bind_eq_ok_iff]
  constructor
  · rintro ⟨⟨pairs, s⟩, hread, h⟩
    cases h
    exact ⟨pairs, hread, rfl⟩
  · rintro ⟨pairs, hread, rfl⟩
    exact ⟨_, hread, rfl⟩

/-- A union is read as an option and the fields of its variant.  The option is entered first, so
that a field with the name of the discriminator replaces its value. -/
theorem readNode_union_eq_ok_iff {name : String} {discriminator : Enumeration}
    {variants : Entries (List Node)} :
    readNode follow (.union name discriminator variants) r = .ok (value, r') ↔
      ∃ option s pairs, readOption discriminator r = .ok (option, s) ∧
        readFields follow ((Entries.get? variants option).getD []) s = .ok (pairs, r') ∧
        value = .object (Entries.insertAll [(discriminator.name, .string option)]
          (Entries.ofList pairs)) := by
  simp only [readNode, readVariant_eq, bind_eq_ok_iff]
  constructor
  · rintro ⟨⟨option, s⟩, hoption, ⟨pairs, t⟩, hpairs, h⟩
    cases h
    exact ⟨option, s, pairs, hoption, hpairs, rfl⟩
  · rintro ⟨option, s, pairs, hoption, hpairs, rfl⟩
    exact ⟨_, hoption, _, hpairs, rfl⟩

/-- Data have been read when the fields have, and fewer than eight bits are left.  These are not
looked at: padding may be anything. -/
theorem readData_eq_ok_iff {fields : List Node} {limit : Nat} :
    readData fields limit r = .ok value ↔
      ∃ pairs r', readFields (followRead fields limit limit) fields r = .ok (pairs, r') ∧
        r'.remaining < 8 ∧ value = .object (Entries.ofList pairs) := by
  rw [readData, bind_eq_ok_iff]
  constructor
  · rintro ⟨⟨pairs, r'⟩, hread, h⟩
    dsimp only at h
    split at h
    · cases h
    · next hrest =>
      cases h
      exact ⟨pairs, r', hread, Nat.not_le.1 hrest, rfl⟩
  · rintro ⟨pairs, r', hread, hrest, rfl⟩
    refine ⟨_, hread, ?_⟩
    dsimp only
    rw [if_neg (Nat.not_le.2 hrest)]
    rfl

/-! ### Readable values -/

/-- Some bits are read as this value.  Of a successful read this keeps what can be said of the value
without the bits. -/
def Readable (follow : ReadPointer) (node : Node) (value : Value) : Prop :=
  ∃ r r', readNode follow node r = .ok (value, r')

/-- The pairs have the names of the fields, and a readable value under each. -/
def ReadableFields (follow : ReadPointer) (fields : List Node) (pairs : List (String × Value)) :
    Prop :=
  List.Forall₂ (fun field pair => pair.1 = field.name ∧ Readable follow field pair.2) fields pairs

/-- Fields that were read have readable values. -/
theorem readableFields_of_readFields {fields : List Node} {pairs : List (String × Value)}
    (h : readFields follow fields r = .ok (pairs, r')) : ReadableFields follow fields pairs := by
  induction fields generalizing r pairs with
  | nil =>
      cases h
      exact .nil
  | cons field rest ih =>
      rw [readFields, bind_eq_ok_iff] at h
      obtain ⟨⟨first, s⟩, hfirst, h⟩ := h
      obtain ⟨⟨more, t⟩, hmore, h⟩ := bind_eq_ok_iff.1 h
      cases h
      exact .cons ⟨rfl, r, s, hfirst⟩ (ih hmore)

/-- The value of the first field, and the others. -/
theorem ReadableFields.cons {field : Node} {rest : List Node} {pairs : List (String × Value)}
    (h : ReadableFields follow (field :: rest) pairs) :
    ∃ value more, pairs = (field.name, value) :: more ∧ Readable follow field value ∧
      ReadableFields follow rest more := by
  obtain ⟨⟨key, value⟩, more, ⟨rfl, hvalue⟩, hmore, rfl⟩ := List.forall₂_cons_left_iff.1 h
  exact ⟨value, more, rfl, hvalue, hmore⟩

theorem ReadableFields.nil {pairs : List (String × Value)} (h : ReadableFields follow [] pairs) :
    pairs = [] :=
  List.forall₂_nil_left_iff.1 h

/-- The names that are read are those of the fields, in their order. -/
theorem ReadableFields.keys_eq {fields : List Node} {pairs : List (String × Value)}
    (h : ReadableFields follow fields pairs) : Entries.keys pairs = fields.map Node.name := by
  induction h with
  | nil => rfl
  | cons hfirst _ ih => rw [Entries.keys_cons, List.map_cons, hfirst.1, ih]

/-- What is read at an integer node is an integer.  The lemmas that follow say the like of other
kinds, and are how the shape of a read value is known. -/
theorem exists_int_of_readable {name : String} {min max : Int64}
    (h : Readable follow (.int name min max) value) : ∃ n, value = .int n := by
  obtain ⟨r, r', h⟩ := h
  obtain ⟨n, -, rfl⟩ := readNode_int_eq_ok_iff.1 h
  exact ⟨n, rfl⟩

theorem exists_fixed_of_readable {name : String} {min max precision : Float}
    (h : Readable follow (.fixed name min max precision) value) : ∃ x, value = .fixed x := by
  obtain ⟨r, r', h⟩ := h
  obtain ⟨k, -, rfl⟩ := readNode_fixed_eq_ok_iff.1 h
  exact ⟨_, rfl⟩

theorem exists_array_of_readable {name : String} {minLength maxLength : UInt32} {item : Node}
    (h : Readable follow (.array name minLength maxLength item) value) :
    ∃ items, value = .array items ∧ ∀ element ∈ items, Readable follow item element := by
  obtain ⟨r, r', h⟩ := h
  obtain ⟨length, s, items, -, hitems, rfl⟩ := readNode_array_eq_ok_iff.1 h
  exact ⟨items, rfl, (BitReader.mem_of_repeated hitems).2⟩

theorem exists_object_of_readable {name : String} {fields : List Node}
    (h : Readable follow (.object name fields) value) :
    ∃ pairs, value = .object (Entries.ofList pairs) ∧ ReadableFields follow fields pairs := by
  obtain ⟨r, r', h⟩ := h
  obtain ⟨pairs, hpairs, rfl⟩ := readNode_object_eq_ok_iff.1 h
  exact ⟨pairs, rfl, readableFields_of_readFields hpairs⟩

/-- A value that is read at a pointer is read against its target, with one pointer less to follow.
In particular the pointer has a target. -/
theorem exists_of_readable_pointer {scope : List Node} {limit budget : Nat} {name target : String}
    (h : Readable (followRead scope limit budget) (.pointer name target) value) :
    ∃ rest node, budget = rest + 1 ∧ resolveTarget scope target = some node ∧
      Readable (followRead scope limit rest) node value := by
  obtain ⟨r, r', h⟩ := h
  rw [readNode_pointer] at h
  cases budget with
  | zero =>
      rw [followRead] at h
      split at h <;> cases h
  | succ rest =>
      rw [followRead] at h
      split at h
      · cases h
      · next node hnode => exact ⟨rest, node, rfl, hnode, r, r', h⟩

end

end Packing

end FieldGrammar
