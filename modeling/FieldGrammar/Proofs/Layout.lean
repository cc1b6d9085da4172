import Mathlib
import FieldGrammar.Proofs.DataRoundTrip

/-!
# The layout of packed data

The layout says which bits stand for a value, kind by kind, without saying how they are computed.

| Kind | Bits |
|---|---|
| bool | 1 |
| int | the offset from `min` |
| fixed | the offset in steps from the step of `min` |
| enumeration | the index of the option |
| optional | a presence bit, then the inner field if present |
| array, enumeration array | the offset of the length from `minLength`, then each item |
| object | each field |
| union | the index of the option, then the fields of the chosen variant |
| pointer | the layout of the target |

A bounded number takes the least number of bits that can hold every offset of its range
(`OffsetBits`), and none if the range has a single number.  Bounds are integers here, so that
nothing is said about words and their arithmetic.

A value is written against a valid node exactly when the layout has bits for it, and these are the
bits (`Packing.WritesLayout`).  The layout counts how many pointers lead into one another, because
writing follows no more of them than it may.  Octets show the bits from the most significant one
of each octet on, with fewer than eight zeros behind.

## Main definitions

* `OffsetBits` — the bits of a number between bounds
* `LaidOut`, `LaidOutItems`, `LaidOutFields` — the bits of a value by the layout of a node
* `RenderedAs` — bits shown by octets

## Main statements

* `Bits.isLeast_width` — widths are least
* `Packing.writesLayout_node`, `Packing.writesLayout_follow` — valid nodes and pointers
* `packData_eq_ok_iff_laidOut` — packed data
-/

namespace FieldGrammar

/-! ### Bounded numbers -/

/-- The bits write the offset of a number of the range `low..=high` from `low`, and no fewer bits
can hold every offset of the range. -/
structure OffsetBits (low high n : Int) (bits : Bits) : Prop where
  low_le : low ≤ n
  le_high : n ≤ high
  offset : (Bits.toNat bits : Int) = n - low
  width : IsLeast {w : Nat | ∀ m, low ≤ m → m ≤ high → m - low < 2 ^ w} bits.length

/-- The bits write the index of an option. -/
def OptionBits (e : Enumeration) (option : String) (bits : Bits) : Prop :=
  ∃ index : Nat, e.options[index]? = some option ∧ OffsetBits 0 (e.options.length - 1) index bits

theorem OptionBits.mem {e : Enumeration} {option : String} {bits : Bits}
    (h : OptionBits e option bits) : option ∈ e.options := by
  obtain ⟨index, hindex, -⟩ := h
  exact List.mem_of_getElem? hindex

namespace Bits

/-- A number of bits is enough for a number when the number is below this power of two. -/
theorem width_le_iff {n w : Nat} : width n ≤ w ↔ n < 2 ^ w := by
  unfold width
  split
  · next h =>
    subst h
    exact iff_of_true (Nat.zero_le w) (Nat.two_pow_pos w)
  · next h => rw [Nat.succ_le_iff, Nat.log2_lt h]

/-- **A width is the least number of bits** that can hold every offset of the range.  The greatest
offset decides, as the smaller ones have no more bits. -/
theorem isLeast_width {low high : Int} (h : low ≤ high) :
    IsLeast {w : Nat | ∀ m, low ≤ m → m ≤ high → m - low < 2 ^ w} (width (high - low).toNat) := by
  have hcast : ∀ w : Nat, ((2 ^ w : Nat) : Int) = 2 ^ w := fun w => by push_cast; rfl
  constructor
  · intro m hlow hhigh
    have hlt := lt_two_pow_width (high - low).toNat
    rw [← hcast]
    omega
  · intro w hw
    have hhigh := hw high h le_rfl
    rw [← hcast] at hhigh
    rw [width_le_iff]
    omega

end Bits

/-- A number between bounds has one offset in one width.  This is how the relation, which names no
function, is matched with what the writer computes. -/
theorem offsetBits_iff {low high n : Int} {bits : Bits} :
    OffsetBits low high n bits ↔
      (low ≤ n ∧ n ≤ high) ∧
        bits = Bits.ofNat (Bits.width (high - low).toNat) (n - low).toNat := by
  constructor
  · rintro ⟨hlow, hhigh, hoffset, hwidth⟩
    refine ⟨⟨hlow, hhigh⟩, ?_⟩
    have hlength := hwidth.unique (Bits.isLeast_width (hlow.trans hhigh))
    rw [← hlength, ← Bits.ofNat_toNat bits]
    congr 1
    rw [Bits.ofNat_toNat]
    omega
  · rintro ⟨⟨hlow, hhigh⟩, rfl⟩
    refine ⟨hlow, hhigh, ?_, ?_⟩
    · rw [Bits.toNat_ofNat_of_le (by omega)]
      omega
    · rw [Bits.length_ofNat]
      exact Bits.isLeast_width (hlow.trans hhigh)

/-- For bounds of 64 bits the distances are exact, so that the layout in integers is the one in
words. -/
theorem offsetBits_toInt_iff {min max n : Int64} {bits : Bits} :
    OffsetBits min.toInt max.toInt n.toInt bits ↔
      (min ≤ n ∧ n ≤ max) ∧
        bits = Bits.ofNat (Bits.width (distance min max)) (distance min n) := by
  rw [offsetBits_iff, Int64.le_iff_toInt_le, Int64.le_iff_toInt_le]
  refine and_congr_right fun ⟨hmin, hmax⟩ => ?_
  have hrange := distance_of_le (hmin.trans hmax)
  have hoffset := distance_of_le hmin
  rw [← hrange, ← hoffset, Int.toNat_natCast, Int.toNat_natCast]

/-! ### The layout -/

mutual

/-- The bits of a value by the layout of a node, with at most `depth` pointers that lead into one
another.  There is one rule for each row of the table above, and two for optional fields. -/
inductive LaidOut (scope : List Node) : (depth : Nat) → Node → Value → Bits → Prop
  | bool {depth : Nat} {name : String} {b : Bool} : LaidOut scope depth (.bool name) (.bool b) [b]
  | int {depth : Nat} {name : String} {min max n : Int64} {value : Value} {bits : Bits}
      (hvalue : value.asInt? = some n) (hbits : OffsetBits min.toInt max.toInt n.toInt bits) :
      LaidOut scope depth (.int name min max) value bits
  | fixed {depth : Nat} {name : String} {min max precision x : Float} {value : Value} {bits : Bits}
      (hvalue : value.asFixed? = some x) (hfinite : x.isFinite = true)
      (hbits : OffsetBits ((Grid.ofPrecision precision).stepsOf min).toInt
        ((Grid.ofPrecision precision).stepsOf max).toInt
        ((Grid.ofPrecision precision).stepsOf x).toInt bits) :
      LaidOut scope depth (.fixed name min max precision) value bits
  | enumeration {depth : Nat} {e : Enumeration} {option : String} {bits : Bits}
      (hbits : OptionBits e option bits) :
      LaidOut scope depth (.enumeration e) (.string option) bits
  | absent {depth : Nat} {name : String} {inner : Node} :
      LaidOut scope depth (.optional name inner) .null [false]
  | present {depth : Nat} {name : String} {inner : Node} {value : Value} {bits : Bits}
      (hvalue : value ≠ .null) (hinner : LaidOut scope depth inner value bits) :
      LaidOut scope depth (.optional name inner) value (true :: bits)
  | array {depth : Nat} {name : String} {minLength maxLength : UInt32} {item : Node}
      {items : List Value} {length bits : Bits}
      (hlength : OffsetBits minLength.toNat maxLength.toNat items.length length)
      (hitems : LaidOutItems scope depth item items bits) :
      LaidOut scope depth (.array name minLength maxLength item) (.array items) (length ++ bits)
  | enumArray {depth : Nat} {name : String} {minLength maxLength : UInt32} {e : Enumeration}
      {chosen : List String} {length : Bits} {parts : List Bits}
      (hlength : OffsetBits minLength.toNat maxLength.toNat chosen.length length)
      (hitems : List.Forall₂ (OptionBits e) chosen parts) :
      LaidOut scope depth (.enumArray name minLength maxLength e) (.array (chosen.map .string))
        (length ++ parts.flatten)
  | object {depth : Nat} {name : String} {fields : List Node} {entries : Entries Value}
      {bits : Bits} (hfields : LaidOutFields scope depth fields entries bits) :
      LaidOut scope depth (.object name fields) (.object entries) bits
  | union {depth : Nat} {name : String} {discriminator : Enumeration}
      {variants : Entries (List Node)} {entries : Entries Value} {option : String}
      {fields : List Node} {index bits : Bits}
      (hoption : Entries.getOrNull entries discriminator.name = .string option)
      (hindex : OptionBits discriminator option index) (hvariant : (option, fields) ∈ variants)
      (hfields : LaidOutFields scope depth fields entries bits) :
      LaidOut scope depth (.union name discriminator variants) (.object entries) (index ++ bits)
  | pointer {depth : Nat} {name target : String} {node : Node} {value : Value} {bits : Bits}
      (htarget : resolveTarget scope target = some node)
      (hnode : LaidOut scope depth node value bits) :
      LaidOut scope (depth + 1) (.pointer name target) value bits

/-- The bits of items of one node, one after the other. -/
inductive LaidOutItems (scope : List Node) : (depth : Nat) → Node → List Value → Bits → Prop
  | nil {depth : Nat} {item : Node} : LaidOutItems scope depth item [] []
  | cons {depth : Nat} {item : Node} {value : Value} {rest : List Value} {bits more : Bits}
      (hfirst : LaidOut scope depth item value bits)
      (hrest : LaidOutItems scope depth item rest more) :
      LaidOutItems scope depth item (value :: rest) (bits ++ more)

/-- The bits of the entries that a list of fields names, in the order of the fields. -/
inductive LaidOutFields (scope : List Node) :
    (depth : Nat) → List Node → Entries Value → Bits → Prop
  | nil {depth : Nat} {entries : Entries Value} : LaidOutFields scope depth [] entries []
  | cons {depth : Nat} {field : Node} {rest : List Node} {entries : Entries Value}
      {bits more : Bits}
      (hfirst : LaidOut scope depth field (Entries.getOrNull entries field.name) bits)
      (hrest : LaidOutFields scope depth rest entries more) :
      LaidOutFields scope depth (field :: rest) entries (bits ++ more)

end

/-- The octets show the bits, from the most significant bit of each octet on, with fewer than eight
zeros behind. -/
def RenderedAs (bits : Bits) (bytes : List UInt8) : Prop :=
  ∃ pad < 8, Bits.ofBytes bytes = bits ++ List.replicate pad false

/-- Bits have one rendering.  Whole octets and fewer than eight zeros leave no choice. -/
theorem renderedAs_iff {bits : Bits} {bytes : List UInt8} :
    RenderedAs bits bytes ↔ bytes = Bits.toBytes bits := by
  constructor
  · rintro ⟨pad, hpad, h⟩
    obtain ⟨pad', hpad', h'⟩ := Bits.ofBytes_toBytes bits
    have hlength := congrArg List.length h
    have hlength' := congrArg List.length h'
    rw [Bits.length_ofBytes, List.length_append, List.length_replicate] at hlength hlength'
    have hsame : pad = pad' := by omega
    rw [hsame, ← h'] at h
    exact Bits.ofBytes_injective h
  · rintro rfl
    exact Bits.ofBytes_toBytes bits

namespace Packing

/-! ### Options and lengths -/

/-- Among distinct options, the index of an option is the one place where it stands.  The layout
asks for some place, and the writer takes the first. -/
theorem writeOption_eq_ok_iff_optionBits {e : Enumeration} (he : e.options.Nodup) {value : Value}
    {option : String} {bits : Bits} :
    writeOption e value = .ok (option, bits) ↔
      value = .string option ∧ OptionBits e option bits := by
  rw [writeOption_eq_ok_iff]
  refine and_congr_right fun _ => exists_congr fun index => ?_
  rw [Enumeration.indexOf?, List.idxOf?_eq_some_iff, offsetBits_iff]
  constructor
  · rintro ⟨⟨hlt, hget, -⟩, rfl⟩
    refine ⟨List.getElem?_eq_some_iff.2 ⟨hlt, hget⟩, ⟨by omega, by omega⟩, ?_⟩
    rw [lastIndex_of_pos (Nat.zero_lt_of_lt hlt)]
    congr 2
    omega
  · rintro ⟨hget, -, rfl⟩
    obtain ⟨hlt, hget⟩ := List.getElem?_eq_some_iff.1 hget
    refine ⟨⟨hlt, hget, fun j hj heq => ?_⟩, ?_⟩
    · exact absurd ((List.Nodup.getElem_inj_iff he).1 (heq.trans hget.symm)) (Nat.ne_of_lt hj)
    · rw [lastIndex_of_pos (Nat.zero_lt_of_lt hlt)]
      congr 2
      omega

/-- A length is written by the layout of a number between its bounds. -/
theorem writeLength_eq_ok_iff_offsetBits {name : String} {length : Nat}
    {minLength maxLength : UInt32} {bits : Bits} :
    writeLength name length minLength maxLength = .ok bits ↔
      OffsetBits minLength.toNat maxLength.toNat length bits := by
  rw [writeLength_eq_ok_iff, offsetBits_iff, Int.ofNat_le, Int.ofNat_le]
  refine and_congr_right fun ⟨hmin, hmax⟩ => ?_
  rw [lengthSpan_of_le (hmin.trans hmax), ← Int.toNat_sub, ← Int.toNat_sub]

section

variable {follow : WritePointer} {scope : List Node} {depth : Nat}

/-! ### Kinds of nodes -/

/-- A value is written against the node exactly when the layout has bits for it, which are the bits
written. -/
def WritesLayout (follow : WritePointer) (scope : List Node) (depth : Nat) (node : Node) : Prop :=
  ∀ value bits, writeNode follow node value = .ok bits ↔ LaidOut scope depth node value bits

theorem writesLayout_bool (name : String) : WritesLayout follow scope depth (.bool name) := by
  intro value bits
  rw [writeNode_bool_eq_ok_iff]
  constructor
  · rintro ⟨b, rfl, rfl⟩
    exact .bool
  · intro h
    cases h with
    | bool => exact ⟨_, rfl, rfl⟩

/-- An integer is written by the layout of a number between its bounds. -/
theorem writesLayout_int (name : String) (min max : Int64) :
    WritesLayout follow scope depth (.int name min max) := by
  intro value bits
  rw [writeNode_int_eq_ok_iff]
  constructor
  · rintro ⟨n, hvalue, hbits⟩
    exact .int hvalue (offsetBits_toInt_iff.2 hbits)
  · intro h
    cases h with
    | int hvalue hbits => exact ⟨_, hvalue, offsetBits_toInt_iff.1 hbits⟩

/-- A number with a point is written by the layout of its step between those of its bounds. -/
theorem writesLayout_fixed (name : String) (min max precision : Float) :
    WritesLayout follow scope depth (.fixed name min max precision) := by
  intro value bits
  rw [writeNode_fixed_eq_ok_iff]
  constructor
  · rintro ⟨x, hvalue, hfinite, hbits⟩
    exact .fixed hvalue hfinite (offsetBits_toInt_iff.2 hbits)
  · intro h
    cases h with
    | fixed hvalue hfinite hbits =>
        exact ⟨_, hvalue, hfinite, offsetBits_toInt_iff.1 hbits⟩

/-- An enumeration is written by the layout of an option. -/
theorem writesLayout_enumeration {e : Enumeration} (he : e.options.Nodup) :
    WritesLayout follow scope depth (.enumeration e) := by
  intro value bits
  rw [writeNode_enumeration_eq_ok_iff]
  simp only [writeOption_eq_ok_iff_optionBits he]
  constructor
  · rintro ⟨option, rfl, hbits⟩
    exact .enumeration hbits
  · intro h
    cases h with
    | enumeration hbits => exact ⟨_, rfl, hbits⟩

/-- The layout has two rules for an optional field, and the writer takes the one that the value
calls for. -/
theorem writesLayout_optional (name : String) {inner : Node}
    (hinner : WritesLayout follow scope depth inner) :
    WritesLayout follow scope depth (.optional name inner) := by
  intro value bits
  rw [writeNode_optional_eq_ok_iff]
  constructor
  · rintro (⟨rfl, rfl⟩ | ⟨hvalue, rest, hrest, rfl⟩)
    · exact .absent
    · exact .present hvalue ((hinner _ _).1 hrest)
  · intro h
    cases h with
    | absent => exact .inl ⟨rfl, rfl⟩
    | present hvalue hrest => exact .inr ⟨hvalue, _, (hinner _ _).2 hrest, rfl⟩

/-- Items are written one after the other by the layout of their node. -/
theorem laidOutItems_iff {item : Node} (hitem : WritesLayout follow scope depth item)
    {items : List Value} {bits : Bits} :
    LaidOutItems scope depth item items bits ↔
      ∃ parts, List.Forall₂ (fun element part => writeNode follow item element = .ok part)
        items parts ∧ bits = parts.flatten := by
  constructor
  · intro h
    induction items generalizing bits with
    | nil =>
        cases h with
        | nil => exact ⟨[], .nil, rfl⟩
    | cons value rest ih =>
        cases h with
        | cons hfirst hrest =>
            obtain ⟨parts, hparts, rfl⟩ := ih hrest
            exact ⟨_ :: parts, .cons ((hitem _ _).2 hfirst) hparts, rfl⟩
  · rintro ⟨parts, hparts, rfl⟩
    induction hparts with
    | nil => exact .nil
    | cons hfirst _ ih => exact .cons ((hitem _ _).1 hfirst) ih

/-- An array is written as its length and its items by their layout. -/
theorem writesLayout_array (name : String) (minLength maxLength : UInt32) {item : Node}
    (hitem : WritesLayout follow scope depth item) :
    WritesLayout follow scope depth (.array name minLength maxLength item) := by
  intro value bits
  rw [writeNode_array_eq_ok_iff]
  simp only [writeLength_eq_ok_iff_offsetBits]
  constructor
  · rintro ⟨items, length, parts, rfl, hlength, hparts, rfl⟩
    exact .array hlength ((laidOutItems_iff hitem).2 ⟨parts, hparts, rfl⟩)
  · intro h
    cases h with
    | array hlength hitems =>
        obtain ⟨parts, hparts, rfl⟩ := (laidOutItems_iff hitem).1 hitems
        exact ⟨_, _, parts, rfl, hlength, hparts, rfl⟩

/-- An array of options is written as its length and the options by their layout. -/
theorem writesLayout_enumArray (name : String) (minLength maxLength : UInt32) {e : Enumeration}
    (he : e.options.Nodup) :
    WritesLayout follow scope depth (.enumArray name minLength maxLength e) := by
  intro value bits
  rw [writeNode_enumArray_eq_ok_iff]
  simp only [writeLength_eq_ok_iff_offsetBits, writeOption_eq_ok_iff_optionBits he, true_and]
  constructor
  · rintro ⟨length, pairs, rfl, hlength, hoptions, rfl⟩
    refine .enumArray (by rwa [List.length_map]) ?_
    rw [List.forall₂_map_left_iff, List.forall₂_map_right_iff, List.forall₂_same]
    exact hoptions
  · intro h
    cases h with
    | enumArray hlength hitems =>
        rename_i chosen length parts
        obtain ⟨hsame, hoptions⟩ := List.forall₂_iff_zip.1 hitems
        have hchosen : (chosen.zip parts).map Prod.fst = chosen := List.map_fst_zip hsame.le
        have hparts : (chosen.zip parts).map Prod.snd = parts := List.map_snd_zip hsame.ge
        refine ⟨length, chosen.zip parts, by rw [hchosen], ?_, fun pair hpair => hoptions hpair,
          by rw [hparts]⟩
        rwa [List.length_zip, ← hsame, min_self]

/-- Fields are written one after the other by the layout of each. -/
theorem writeFields_eq_ok_iff_laidOutFields {fields : List Node}
    (hfields : ∀ field ∈ fields, WritesLayout follow scope depth field) {entries : Entries Value}
    {bits : Bits} :
    writeFields follow fields entries = .ok bits ↔
      LaidOutFields scope depth fields entries bits := by
  rw [writeFields_eq_ok_iff]
  constructor
  · rintro ⟨parts, hparts, rfl⟩
    induction hparts with
    | nil => exact .nil
    | cons hfirst _ ih =>
        obtain ⟨hfield, hrest⟩ := List.forall_mem_cons.1 hfields
        exact .cons ((hfield _ _).1 hfirst) (ih hrest)
  · intro h
    induction fields generalizing bits with
    | nil =>
        cases h with
        | nil => exact ⟨[], .nil, rfl⟩
    | cons field rest ih =>
        obtain ⟨hfield, hmore⟩ := List.forall_mem_cons.1 hfields
        cases h with
        | cons hfirst hrest =>
            obtain ⟨parts, hparts, rfl⟩ := ih hmore hrest
            exact ⟨_ :: parts, .cons ((hfield _ _).2 hfirst) hparts, rfl⟩

/-- An object is written as its fields, each by its layout. -/
theorem writesLayout_object (name : String) {fields : List Node}
    (hfields : ∀ field ∈ fields, WritesLayout follow scope depth field) :
    WritesLayout follow scope depth (.object name fields) := by
  intro value bits
  rw [writeNode_object_eq_ok_iff]
  constructor
  · rintro ⟨entries, rfl, hbits⟩
    exact .object ((writeFields_eq_ok_iff_laidOutFields hfields).1 hbits)
  · intro h
    cases h with
    | object hbits => exact ⟨_, rfl, (writeFields_eq_ok_iff_laidOutFields hfields).2 hbits⟩

/-- The variants of a valid union have distinct names, one for each option, so that the one stored
for the chosen option is the one found. -/
theorem writesLayout_union {name : String} {discriminator : Enumeration}
    {variants : Entries (List Node)} (hvalid : (Node.union name discriminator variants).Valid)
    (hfields : ∀ entry ∈ variants, ∀ field ∈ entry.2, WritesLayout follow scope depth field) :
    WritesLayout follow scope depth (.union name discriminator variants) := by
  obtain ⟨⟨-, hnodup⟩, hperm, -⟩ := Node.valid_union_iff.1 hvalid
  have hkeys : (Entries.keys variants).Nodup := hperm.nodup_iff.2 hnodup
  intro value bits
  rw [writeNode_union_eq_ok_iff]
  simp only [writeOption_eq_ok_iff_optionBits hnodup]
  constructor
  · rintro ⟨entries, option, index, rest, rfl, ⟨hoption, hindex⟩, hrest, rfl⟩
    obtain ⟨⟨_, fields⟩, hentry, rfl⟩ := List.mem_map.1 (hperm.mem_iff.2 hindex.mem)
    rw [(Entries.get?_eq_some_iff hkeys).2 hentry, Option.getD_some,
      writeFields_eq_ok_iff_laidOutFields (hfields _ hentry)] at hrest
    exact .union hoption hindex hentry hrest
  · intro h
    cases h with
    | union hoption hindex hvariant hrest =>
        refine ⟨_, _, _, _, rfl, ⟨hoption, hindex⟩, ?_, rfl⟩
        rw [(Entries.get?_eq_some_iff hkeys).2 hvariant, Option.getD_some,
          writeFields_eq_ok_iff_laidOutFields (hfields _ hvariant)]
        exact hrest

/-! ### Valid nodes -/

/-- **Valid nodes are written by their layout** if pointers are.  Validity is used for options and
variants, whose names have to be distinct for a lookup to find the one place. -/
theorem writesLayout_node
    (hfollow : ∀ name target, WritesLayout follow scope depth (.pointer name target)) {node : Node}
    (hvalid : node.Valid) : WritesLayout follow scope depth node := by
  induction node with
  | bool name => exact writesLayout_bool name
  | int name min max => exact writesLayout_int name min max
  | fixed name min max precision => exact writesLayout_fixed name min max precision
  | enumeration e => exact writesLayout_enumeration (Node.valid_enumeration_iff.1 hvalid).2
  | optional name inner ih =>
      exact writesLayout_optional name (ih (Node.valid_optional_iff.1 hvalid))
  | array name minLength maxLength item ih =>
      exact writesLayout_array name minLength maxLength (ih (Node.valid_array_iff.1 hvalid).2)
  | enumArray name minLength maxLength e =>
      exact writesLayout_enumArray name minLength maxLength (Node.valid_enumArray_iff.1 hvalid).2.2
  | object name fields ih =>
      obtain ⟨-, hfields⟩ := Node.valid_object_iff.1 hvalid
      exact writesLayout_object name fun field hfield => ih field hfield (hfields field hfield)
  | union name discriminator variants ih =>
      obtain ⟨-, -, hentries⟩ := Node.valid_union_iff.1 hvalid
      exact writesLayout_union hvalid fun entry hentry field hfield =>
        ih entry hentry field hfield ((hentries entry hentry).2 field hfield)
  | pointer name target => exact hfollow name target

end

/-- **Pointers are written by the layout of their targets**, as many of them as may be followed. The
induction is on this number, which the layout counts down as the writer does. -/
theorem writesLayout_follow {scope : List Node} (hscope : ∀ field ∈ scope, field.Valid)
    (limit budget : Nat) (name target : String) :
    WritesLayout (followWrite scope limit budget) scope budget (.pointer name target) := by
  induction budget generalizing name target with
  | zero =>
      intro value bits
      rw [writeNode_pointer]
      constructor
      · intro h
        cases htarget : resolveTarget scope target with
        | none => rw [followWrite_missing htarget] at h; cases h
        | some node => rw [followWrite_zero htarget] at h; cases h
      · intro h
        cases h
  | succ budget ih =>
      intro value bits
      rw [writeNode_pointer]
      constructor
      · intro h
        cases htarget : resolveTarget scope target with
        | none => rw [followWrite_missing htarget] at h; cases h
        | some node =>
            rw [followWrite_succ htarget] at h
            exact .pointer htarget
              ((writesLayout_node ih (valid_of_resolveTarget hscope htarget) _ _).1 h)
      · intro h
        cases h with
        | pointer htarget hnode =>
            rw [followWrite_succ htarget]
            exact (writesLayout_node ih (valid_of_resolveTarget hscope htarget) _ _).2 hnode

end Packing

/-- **Packing implements the layout.**  The octets of data against the fields of a valid schema show
the bits that the layout has for the data, field after field.  There are such octets whenever the
layout has bits, and it never has others.  The layout is a relation and computes nothing, so that
the format can be read off it without the writer. -/
theorem packData_eq_ok_iff_laidOut {name : String} {fields : List Node} {options : CodecOptions}
    (hvalid : Schema.validate ⟨name, fields⟩ = .ok ()) (data : Value) :
    (∀ bytes, packData fields data options = .ok bytes ↔
      ∃ entries bits, data = .object entries ∧
        LaidOutFields fields options.pointerDepth fields entries bits ∧ RenderedAs bits bytes) ∧
    ∀ entries bits bits', LaidOutFields fields options.pointerDepth fields entries bits →
      LaidOutFields fields options.pointerDepth fields entries bits' → bits = bits' := by
  obtain ⟨-, hfields⟩ := Schema.validate_eq_ok_iff.1 hvalid
  have hwrites : ∀ entries bits,
      Packing.writeFields (Packing.followWrite fields options.pointerDepth options.pointerDepth)
        fields entries = .ok bits ↔
      LaidOutFields fields options.pointerDepth fields entries bits := by
    intro entries bits
    refine Packing.writeFields_eq_ok_iff_laidOutFields fun field hfield => ?_
    exact Packing.writesLayout_node (Packing.writesLayout_follow hfields _ _) (hfields field hfield)
  constructor
  · intro bytes
    rw [packData_eq_ok_iff]
    constructor
    · rintro ⟨bits, hbits, hbytes⟩
      obtain ⟨entries, rfl, hbits⟩ := Packing.writeData_eq_ok_iff.1 hbits
      exact ⟨entries, bits, rfl, (hwrites entries bits).1 hbits, renderedAs_iff.2 hbytes⟩
    · rintro ⟨entries, bits, rfl, hbits, hbytes⟩
      exact ⟨bits, (hwrites entries bits).2 hbits, renderedAs_iff.1 hbytes⟩
  · intro entries bits bits' h h'
    have hsame := (hwrites entries bits).2 h
    rw [(hwrites entries bits').2 h', Except.ok.injEq] at hsame
    exact hsame.symm

/-- Counters of 64 bits in a tree, each with a field that has one possible value.  The extremes of
widths are both there: all bits of a word, and none. -/
def counterTree : List Node :=
  [.object "tree"
    [.int "count" Int64.minValue Int64.maxValue, .int "version" 1 1,
      .array "children" 0 3 (.pointer "child" "tree")]]

/-- A counter with another one below it. -/
def twoCounters : Value :=
  .object
    [("tree", .object
      [("count", .int (-1)), ("version", .int 1),
        ("children", .array
          [.object [("count", .int 5), ("version", .int 1), ("children", .array [])]])])]

/-- Two counters are laid out, the second one through a pointer: their counts take 64 bits each, and
their versions, which have one possible value, take none. -/
theorem packData_eq_ok_iff_laidOut_twoCounters :
    Schema.validate ⟨"counters", counterTree⟩ = .ok () ∧
    ∃ entries bits, twoCounters = .object entries ∧
      LaidOutFields counterTree 5 counterTree entries bits ∧
      RenderedAs bits [127, 255, 255, 255, 255, 255, 255, 255, 96, 0, 0, 0, 0, 0, 0, 1, 64] := by
  have hvalid : Schema.validate ⟨"counters", counterTree⟩ = .ok () := rfl
  have hpack : packData counterTree twoCounters {} =
      .ok [127, 255, 255, 255, 255, 255, 255, 255, 96, 0, 0, 0, 0, 0, 0, 1, 64] :=
    eq_ok_of_toOption (by decide +kernel)
  exact ⟨hvalid, ((packData_eq_ok_iff_laidOut hvalid twoCounters).1 _).1 hpack⟩

end FieldGrammar
