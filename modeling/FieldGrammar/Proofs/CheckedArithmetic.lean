import Mathlib
import FieldGrammar.Packing.Checked
import FieldGrammar.Proofs.DefaultData
import FieldGrammar.Proofs.Layout
import FieldGrammar.Proofs.ReadValues

/-!
# No step of the arithmetic leaves its range

Writing and reading data against a valid schema end alike whether or not their arithmetic is
checked: with the same octets, the same value or the same error.  So no difference falls below zero,
no width is more than 64 bits, every distance of bounds is exact, and so is every number that an
offset is turned back into, whatever data or octets are given.

The proof follows the two traversals node by node.  What the arithmetic at a node relies on is
`Node.Ranged`: its bounds are in order and it has options, no more than a 64-bit word counts.  A
valid node has its bounds in order, those of a fixed-point field also as numbers of steps.  The rest
is ensured by the order of the checks: a value is compared with its bounds before its offset is
taken, an offset that was read is compared with its range before it is added to the lower bound, and
a budget is lowered only when it is not used up.

## Main definitions

* `Node.Ranged` — what the arithmetic at a node relies on

## Main statements

* `Checked.sub_eq_ok_iff`, `Checked.word_eq_ok_iff`, `Checked.integer_eq_ok_iff`,
  `Checked.width_eq_ok_iff` — a checked step gives a result exactly when it is exact
* `Checked.writeNode_eq_lift`, `Checked.readNode_eq_lift` — a node, given its pointers
* `Checked.followWrite_eq_lift`, `Checked.followRead_eq_lift` — pointers, for every budget
* `checked_eq_unchecked` — whole data
-/

namespace FieldGrammar

/-! ### What the arithmetic relies on -/

namespace Node

/-- The enumeration that an index is written for. -/
def enumeration? : Node → Option Enumeration
  | .enumeration e | .enumArray _ _ _ e | .union _ e _ => some e
  | _ => none

/-- The bounds of a node are in order, and its options can be counted in a 64-bit word.  The first
holds of valid nodes; the second is the one thing that validity does not give. -/
def Ranged (node : Node) : Prop :=
  (∀ e ∈ node.enumeration?, 0 < e.options.length ∧ e.options.length < UInt64.size) ∧
    match node with
    | .int _ min max => min ≤ max
    | .fixed _ min max precision =>
      (Grid.ofPrecision precision).stepsOf min ≤ (Grid.ofPrecision precision).stepsOf max
    | .array _ minLength maxLength _ | .enumArray _ minLength maxLength _ => minLength ≤ maxLength
    | _ => True

/-- A valid node is ranged, if its options can be counted.  For numbers with a point the bounds have
to be in order as steps, which rounding preserves. -/
theorem Valid.ranged {node : Node} (hvalid : node.Valid)
    (hcount : ∀ e ∈ node.enumeration?, e.options.length < UInt64.size) : node.Ranged := by
  refine ⟨fun e he => ⟨List.length_pos_of_ne_nil ?_, hcount e he⟩, ?_⟩
  · cases node with
    | enumeration => cases he; exact (valid_enumeration_iff.1 hvalid).1
    | enumArray => cases he; exact (valid_enumArray_iff.1 hvalid).2.1
    | union => cases he; exact (valid_union_iff.1 hvalid).1.1
    | bool | int | fixed | optional | array | object | pointer => cases he
  · cases node with
    | int => exact valid_int_iff.1 hvalid
    | fixed =>
        obtain ⟨⟨hmin, hmax, hprecision⟩, hle, hpos⟩ := valid_fixed_iff.1 hvalid
        exact Grid.stepsOf_le_of_not_lt hprecision hpos hmin hmax hle
    | array => exact (valid_array_iff.1 hvalid).1
    | enumArray => exact (valid_enumArray_iff.1 hvalid).1
    | bool | enumeration | optional | object | union | pointer => trivial

end Node

namespace Checked

variable {α β : Type}

/-! ### Runs that do not halt -/

@[simp] theorem lift_ok (a : α) : lift (.ok a) = .ok a := rfl

/-- A run goes on alike after a part that is not checked. -/
theorem lift_bind {x : Except Error α} {f : α → Checked β} {g : α → Except Error β}
    (h : ∀ a, x = .ok a → f a = lift (g a)) : (lift x >>= f) = lift (x >>= g) := by
  cases x with
  | error e => rfl
  | ok a => exact h a rfl

/-- A computation over a list does not halt if it halts at no member. -/
theorem mapM_eq_lift {f : α → Checked β} {g : α → Except Error β} (h : ∀ a, f a = lift (g a))
    (xs : List α) : xs.mapM f = lift (xs.mapM g) := by
  induction xs with
  | nil => rfl
  | cons x xs ih =>
      rw [List.mapM_cons, List.mapM_cons, h, ih]
      exact lift_bind fun y _ => lift_bind fun ys _ => rfl

/-- A reader that never halts does not halt when it is repeated, by induction on the number. -/
theorem repeated_eq_lift {f : BitReader → Checked (α × BitReader)}
    {g : BitReader → Except Error (α × BitReader)} (h : ∀ r, f r = lift (g r)) (n : Nat)
    (r : BitReader) : repeated f n r = lift (BitReader.repeated g n r) := by
  induction n generalizing r with
  | zero => rfl
  | succ n ih =>
      rw [repeated, BitReader.repeated_succ, h]
      refine lift_bind fun found _ => ?_
      dsimp only
      rw [ih]
      exact lift_bind fun rest _ => rfl

/-! ### Checked steps -/

/-- A difference is accepted exactly when it is the difference. -/
theorem sub_eq_ok_iff {a b d : Nat} : sub a b = .ok d ↔ d + b = a := by
  unfold sub
  split
  · rw [Except.ok.injEq]
    omega
  · simp only [reduceCtorEq, false_iff]
    omega

/-- A word is accepted exactly when it is the number. -/
theorem word_eq_ok_iff {n : Int} {w : Nat} : word n = .ok w ↔ (w : Int) = n ∧ w < UInt64.size := by
  unfold word
  split
  · rw [Except.ok.injEq]
    omega
  · simp only [reduceCtorEq, false_iff]
    omega

/-- A 64-bit integer is accepted exactly when it is the number. -/
theorem integer_eq_ok_iff {n : Int} {i : Int64} : integer n = .ok i ↔ i.toInt = n := by
  unfold integer
  split
  · next h =>
    rw [Except.ok.injEq]
    constructor
    · rintro rfl
      exact Int64.toInt_ofInt_of_le h.1 (Int.lt_add_one_iff.2 h.2)
    · rintro rfl
      exact Int64.ofInt_toInt i
  · next h =>
    simp only [reduceCtorEq, false_iff]
    rintro rfl
    exact h ⟨i.minValue_le_toInt, i.toInt_le⟩

/-- A width is accepted exactly when the bound is a 64-bit word. -/
theorem width_eq_ok_iff {bound count : Nat} :
    width bound = .ok count ↔ count = Bits.width bound ∧ bound < UInt64.size := by
  unfold width
  split
  · next h =>
    have hbound : bound < UInt64.size := Bits.width_le_iff.1 h
    rw [Except.ok.injEq, eq_comm, and_iff_left hbound]
  · next h =>
    simp only [reduceCtorEq, false_iff]
    exact fun hbound => h (Bits.width_le_iff.2 hbound.2)

/-- Between bounds in order, the distance is exact. -/
theorem distance_eq_ok {low high : Int64} (h : low ≤ high) :
    distance low high = .ok (FieldGrammar.distance low high) :=
  word_eq_ok_iff.2 ⟨distance_of_le (Int64.le_iff_toInt_le.1 h), distance_lt low high⟩

/-- The bits of an offset need a width, and that of a 64-bit word is in range. -/
theorem offsetBits_eq_ok {bound : Nat} (h : bound < UInt64.size) (offset : Nat) :
    offsetBits bound offset = .ok (Bits.ofNat (Bits.width bound) offset) := by
  rw [offsetBits, width_eq_ok_iff.2 ⟨rfl, h⟩]
  rfl

theorem readBounded_eq_lift {bound : Nat} (h : bound < UInt64.size) (r : BitReader) :
    readBounded bound r = lift (r.read (Bits.width bound)) := by
  rw [readBounded, width_eq_ok_iff.2 ⟨rfl, h⟩]
  rfl

/-! ### Parts of a value -/

section

variable {e : Enumeration}

/-- Writing an option takes one from the number of options, of which there has to be one. -/
theorem writeOption_eq_lift (h : 0 < e.options.length ∧ e.options.length < UInt64.size)
    (value : Value) : writeOption e value = lift (Packing.writeOption e value) := by
  rw [writeOption, Packing.writeOption]
  cases value.asString? with
  | none => rfl
  | some option =>
      dsimp only
      cases e.indexOf? option with
      | none => rfl
      | some index =>
          dsimp only
          rw [lastIndex_of_pos h.1, sub_eq_ok_iff.2 (Nat.sub_add_cancel h.1), ok_bind,
            offsetBits_eq_ok ((Nat.sub_le _ _).trans_lt h.2)]
          rfl

/-- Reading an option takes the same difference as writing it. -/
theorem readOption_eq_lift (h : 0 < e.options.length ∧ e.options.length < UInt64.size)
    (r : BitReader) : readOption e r = lift (Packing.readOption e r) := by
  rw [readOption, Packing.readOption, lastIndex_of_pos h.1,
    sub_eq_ok_iff.2 (Nat.sub_add_cancel h.1), ok_bind,
    readBounded_eq_lift ((Nat.sub_le _ _).trans_lt h.2)]
  refine lift_bind fun found _ => ?_
  dsimp only
  cases e.options[found.1]? <;> rfl

end

section

variable {minLength maxLength : UInt32}

/-- Between bounds in order, the range of lengths is a difference that does not fall below zero. -/
theorem sub_length (h : minLength ≤ maxLength) :
    sub maxLength.toNat minLength.toNat = .ok (lengthSpan minLength maxLength) := by
  have hle := UInt32.le_iff_toNat_le.1 h
  rw [Packing.lengthSpan_of_le hle]
  exact sub_eq_ok_iff.2 (Nat.sub_add_cancel hle)

/-- The range of lengths fits 32 bits, and so do its offsets. -/
theorem lengthSpan_lt (minLength maxLength : UInt32) : lengthSpan minLength maxLength < 2 ^ 32 :=
  (maxLength - minLength).toNat_lt

/-- A length is compared with its bounds before the least one is taken from it, so the difference is
one. -/
theorem writeLength_eq_lift (h : minLength ≤ maxLength) (name : String) (length : Nat) :
    writeLength name length minLength maxLength =
      lift (Packing.writeLength name length minLength maxLength) := by
  rw [writeLength, Packing.writeLength]
  split
  · rfl
  · next hbounds =>
    have hmin : minLength.toNat ≤ length := by omega
    rw [sub_eq_ok_iff.2 (Nat.sub_add_cancel hmin), ok_bind, sub_length h, ok_bind,
      offsetBits_eq_ok ((lengthSpan_lt _ _).trans (by decide)), lift_ok]

/-- An offset of 32 bits and a least length of 32 bits have a sum that a 64-bit word holds. -/
theorem readLength_eq_lift (h : minLength ≤ maxLength) (name : String) (r : BitReader) :
    readLength name minLength maxLength r =
      lift (Packing.readLength name minLength maxLength r) := by
  rw [readLength, Packing.readLength, sub_length h, ok_bind,
    readBounded_eq_lift ((lengthSpan_lt _ _).trans (by decide))]
  refine lift_bind fun found hfound => ?_
  obtain ⟨offset, r'⟩ := found
  have hoffset : offset < 2 ^ 32 :=
    (BitReader.lt_of_read hfound).trans_le
      (Nat.pow_le_pow_right (by decide) (Bits.width_le_iff.2 (lengthSpan_lt _ _)))
  have hmin := minLength.toNat_lt
  have hword : word (minLength.toNat + offset) = .ok (minLength.toNat + offset) :=
    word_eq_ok_iff.2 ⟨rfl, by rw [UInt64.size]; omega⟩
  dsimp only
  rw [hword, ok_bind]
  split <;> rfl

end

section

variable {low high : Int64}

/-- Between the bounds, both distances are exact.  This is the step that integers and numbers with a
point have in common. -/
theorem writeOffset_eq_ok {n : Int64} (hlow : low ≤ n) (hhigh : n ≤ high) :
    writeOffset low high n =
      .ok (Bits.ofNat (Bits.width (FieldGrammar.distance low high))
        (FieldGrammar.distance low n)) := by
  rw [writeOffset, distance_eq_ok hlow, ok_bind, distance_eq_ok (Int64.le_trans hlow hhigh),
    ok_bind, offsetBits_eq_ok (distance_lt low high)]

/-- An integer is compared with its bounds before its offset is taken. -/
theorem writeInt_eq_lift (name : String) (value : Value) :
    writeInt name low high value = lift (Packing.writeInt name low high value) := by
  rw [writeInt, Packing.writeInt]
  cases value.asInt? with
  | none => rfl
  | some n =>
      dsimp only
      split
      · rfl
      · next hbounds =>
        obtain ⟨hlow, hhigh⟩ := not_or.1 hbounds
        rw [writeOffset_eq_ok (Int64.not_lt.1 hlow) (Int64.not_lt.1 hhigh), lift_ok]

/-- The step of a number is compared with those of its bounds before its offset is taken. -/
theorem writeFixed_eq_lift (name : String) (min max precision : Float) (value : Value) :
    writeFixed name min max precision value =
      lift (Packing.writeFixed name min max precision value) := by
  rw [writeFixed, Packing.writeFixed]
  cases value.asFixed? with
  | none => rfl
  | some x =>
      dsimp only
      split
      · rfl
      · next hbounds =>
        obtain ⟨-, hlow, hhigh⟩ := not_or.1 hbounds |>.imp_right not_or.1
        rw [writeOffset_eq_ok (Int64.not_lt.1 hlow) (Int64.not_lt.1 hhigh), lift_ok]

/-- **What an offset of the range is turned back into is exact.**  An offset that was read is
compared with the range first, and the least number with such an offset added is not above the
greatest. -/
theorem readOffset_eq_lift (h : low ≤ high) (name : String) (r : BitReader) :
    readOffset name low high r = lift (Packing.readOffset name low high r) := by
  rw [readOffset, Packing.readOffset, distance_eq_ok h, ok_bind,
    readBounded_eq_lift (distance_lt low high)]
  refine lift_bind fun found _ => ?_
  obtain ⟨offset, r'⟩ := found
  dsimp only
  split
  · rfl
  · next hle =>
    rw [integer_eq_ok_iff.2 (Packing.toInt_advance h (Nat.not_lt.1 hle)), ok_bind]
    rfl

/-- Steps are read like integers; that their bounds are in order is asked for as such, since
rounding decides it. -/
theorem readFixed_eq_lift {min max precision : Float}
    (h : (Grid.ofPrecision precision).stepsOf min ≤ (Grid.ofPrecision precision).stepsOf max)
    (name : String) (r : BitReader) :
    readFixed name min max precision r = lift (Packing.readFixed name min max precision r) := by
  rw [readFixed, Packing.readFixed, readOffset_eq_lift h]
  exact lift_bind fun _ _ => rfl

end

/-! ### Nodes -/

section

variable {follow : WritePointer} {follow' : Packing.WritePointer}

/-- Looking a variant up and writing it is writing it where it stands. -/
theorem writeVariant_eq (variants : Entries (List Node)) (option : String)
    (entries : Entries Value) :
    writeVariant follow variants option entries =
      writeFields follow ((Entries.get? variants option).getD []) entries :=
  Entries.search_getD_eq (f := (writeVariant follow · option entries)) rfl
    (fun _ _ _ => by rw [writeVariant]) variants

/-- Fields are written without a halt if each of them is, whatever the value. -/
theorem writeFields_eq_lift {fields : List Node}
    (h : ∀ field ∈ fields, ∀ value,
      writeNode follow field value = lift (Packing.writeNode follow' field value))
    (entries : Entries Value) :
    writeFields follow fields entries = lift (Packing.writeFields follow' fields entries) := by
  induction fields with
  | nil => rfl
  | cons field rest ih =>
      obtain ⟨hfield, hrest⟩ := List.forall_mem_cons.1 h
      rw [writeFields, Packing.writeFields, hfield, ih hrest]
      exact lift_bind fun _ _ => lift_bind fun _ _ => rfl

/-- **A node is written without a halt, if its pointers are.**  The induction is over the children
of the node, and at each of them `Node.Ranged` provides what its arithmetic needs. -/
theorem writeNode_eq_lift
    (hfollow : ∀ name target value, follow name target value = lift (follow' name target value))
    {node : Node} (hranged : ∀ m ∈ node.walk, m.Ranged) (value : Value) :
    writeNode follow node value = lift (Packing.writeNode follow' node value) := by
  induction node using Node.induction_children generalizing value with
  | step node ih =>
      obtain ⟨⟨hcount, hbounds⟩, hchildren⟩ := Node.forall_mem_walk_iff.1 hranged
      replace ih : ∀ child ∈ node.children, ∀ value,
          writeNode follow child value = lift (Packing.writeNode follow' child value) :=
        fun child hchild => ih child hchild (hchildren child hchild)
      cases node with
      | bool name =>
          rw [writeNode, Packing.writeNode]
          cases value.asBool? <;> rfl
      | int name min max =>
          rw [writeNode, Packing.writeNode, writeInt_eq_lift]
      | fixed name min max precision =>
          rw [writeNode, Packing.writeNode, writeFixed_eq_lift]
      | enumeration e =>
          rw [writeNode, Packing.writeNode, writeOption_eq_lift (hcount e rfl)]
          exact lift_bind fun _ _ => rfl
      | optional name inner =>
          rw [writeNode, Packing.writeNode, ih inner List.mem_cons_self]
          split
          · rfl
          · exact lift_bind fun _ _ => rfl
      | array name minLength maxLength item =>
          rw [writeNode, Packing.writeNode]
          cases value.asArray? with
          | none => rfl
          | some items =>
              dsimp only
              rw [writeLength_eq_lift hbounds, mapM_eq_lift (ih item List.mem_cons_self)]
              exact lift_bind fun _ _ => lift_bind fun _ _ => rfl
      | enumArray name minLength maxLength e =>
          rw [writeNode, Packing.writeNode]
          cases value.asArray? with
          | none => rfl
          | some items =>
              dsimp only
              rw [writeLength_eq_lift hbounds, mapM_eq_lift (writeOption_eq_lift (hcount e rfl))]
              exact lift_bind fun _ _ => lift_bind fun _ _ => rfl
      | object name fields =>
          rw [writeNode, Packing.writeNode]
          cases value.asObject? with
          | none => rfl
          | some entries => exact writeFields_eq_lift ih entries
      | union name discriminator variants =>
          rw [writeNode, Packing.writeNode]
          cases value.asObject? with
          | none => rfl
          | some entries =>
              dsimp only
              rw [writeOption_eq_lift (hcount discriminator rfl)]
              refine lift_bind fun found hfound => ?_
              have hoption := Packing.mem_of_writeOption hfound
              rw [writeVariant_eq, Packing.writeVariant_eq, writeFields_eq_lift fun field hfield =>
                ih field (Node.mem_children_union.2 ⟨found.1, hoption, hfield⟩)]
              exact lift_bind fun _ _ => rfl
      | pointer name target => exact hfollow name target value

end

section

variable {follow : ReadPointer} {follow' : Packing.ReadPointer}

/-- Looking a variant up and reading it is reading it where it stands. -/
theorem readVariant_eq (variants : Entries (List Node)) (option : String) (r : BitReader) :
    readVariant follow variants option r =
      readFields follow ((Entries.get? variants option).getD []) r :=
  Entries.search_getD_eq (f := (readVariant follow · option r)) rfl
    (fun _ _ _ => by rw [readVariant]) variants

/-- Fields are read without a halt if each of them is, wherever it starts. -/
theorem readFields_eq_lift {fields : List Node}
    (h : ∀ field ∈ fields, ∀ r,
      readNode follow field r = lift (Packing.readNode follow' field r)) (r : BitReader) :
    readFields follow fields r = lift (Packing.readFields follow' fields r) := by
  induction fields generalizing r with
  | nil => rfl
  | cons field rest ih =>
      obtain ⟨hfield, hrest⟩ := List.forall_mem_cons.1 h
      rw [readFields, Packing.readFields, hfield]
      refine lift_bind fun found _ => ?_
      dsimp only
      rw [ih hrest]
      exact lift_bind fun _ _ => rfl

/-- **A node is read without a halt, if its pointers are.**  The cases are those of
`writeNode_eq_lift`, in the direction of reading. -/
theorem readNode_eq_lift
    (hfollow : ∀ name target r, follow name target r = lift (follow' name target r))
    {node : Node} (hranged : ∀ m ∈ node.walk, m.Ranged) (r : BitReader) :
    readNode follow node r = lift (Packing.readNode follow' node r) := by
  induction node using Node.induction_children generalizing r with
  | step node ih =>
      obtain ⟨⟨hcount, hbounds⟩, hchildren⟩ := Node.forall_mem_walk_iff.1 hranged
      replace ih : ∀ child ∈ node.children, ∀ r,
          readNode follow child r = lift (Packing.readNode follow' child r) :=
        fun child hchild => ih child hchild (hchildren child hchild)
      cases node with
      | bool name =>
          rw [readNode, Packing.readNode]
          exact lift_bind fun _ _ => rfl
      | int name min max =>
          rw [readNode, Packing.readNode, readOffset_eq_lift hbounds]
          exact lift_bind fun _ _ => rfl
      | fixed name min max precision =>
          rw [readNode, Packing.readNode, readFixed_eq_lift hbounds]
          exact lift_bind fun _ _ => rfl
      | enumeration e =>
          rw [readNode, Packing.readNode, readOption_eq_lift (hcount e rfl)]
          exact lift_bind fun _ _ => rfl
      | optional name inner =>
          rw [readNode, Packing.readNode]
          refine lift_bind fun found _ => ?_
          dsimp only
          rw [ih inner List.mem_cons_self]
          split <;> rfl
      | array name minLength maxLength item =>
          rw [readNode, Packing.readNode, readLength_eq_lift hbounds]
          refine lift_bind fun found _ => ?_
          dsimp only
          rw [repeated_eq_lift (ih item List.mem_cons_self)]
          exact lift_bind fun _ _ => rfl
      | enumArray name minLength maxLength e =>
          rw [readNode, Packing.readNode, readLength_eq_lift hbounds]
          refine lift_bind fun found _ => ?_
          dsimp only
          rw [repeated_eq_lift (readOption_eq_lift (hcount e rfl))]
          exact lift_bind fun _ _ => rfl
      | object name fields =>
          have hfields : ∀ r, readFields follow fields r =
              lift (Packing.readFields follow' fields r) := readFields_eq_lift ih
          rw [readNode, Packing.readNode, hfields]
          exact lift_bind fun _ _ => rfl
      | union name discriminator variants =>
          rw [readNode, Packing.readNode, readOption_eq_lift (hcount discriminator rfl)]
          refine lift_bind fun found hfound => ?_
          have hoption := Packing.mem_of_readOption hfound
          dsimp only
          rw [readVariant_eq, Packing.readVariant_eq, readFields_eq_lift fun field hfield =>
            ih field (Node.mem_children_union.2 ⟨found.1, hoption, hfield⟩)]
          exact lift_bind fun _ _ => rfl
      | pointer name target =>
          rw [readNode, Packing.readNode]
          exact hfollow name target r

end

/-! ### Pointers -/

section

variable {scope : List Node} (hscope : ∀ m ∈ Node.walkList scope, m.Ranged) (limit : Nat)

include hscope

/-- **No budget falls below zero**: it is lowered only if it is not used up. -/
theorem followWrite_eq_lift (budget : Nat) (name target : String) (value : Value) :
    followWrite scope limit budget name target value =
      lift (Packing.followWrite scope limit budget name target value) := by
  induction budget generalizing name target value with
  | zero =>
      rw [followWrite, Packing.followWrite, enter]
      cases resolveTarget scope target <;> rfl
  | succ budget ih =>
      rw [followWrite, Packing.followWrite, enter]
      cases hresolve : resolveTarget scope target with
      | none => rfl
      | some node =>
          have hwalk := Node.walk_subset_walkList (resolveTarget_some hresolve).2.2
          exact writeNode_eq_lift ih (fun m hm => hscope m (hwalk hm)) value

/-- A budget is lowered in reading as it is in writing. -/
theorem followRead_eq_lift (budget : Nat) (name target : String) (r : BitReader) :
    followRead scope limit budget name target r =
      lift (Packing.followRead scope limit budget name target r) := by
  induction budget generalizing name target r with
  | zero =>
      rw [followRead, Packing.followRead, enter]
      cases resolveTarget scope target <;> rfl
  | succ budget ih =>
      rw [followRead, Packing.followRead, enter]
      cases hresolve : resolveTarget scope target with
      | none => rfl
      | some node =>
          have hwalk := Node.walk_subset_walkList (resolveTarget_some hresolve).2.2
          exact readNode_eq_lift ih (fun m hm => hscope m (hwalk hm)) r

end

/-! ### Whole data -/

section

variable {fields : List Node} (hranged : ∀ m ∈ Node.walkList fields, m.Ranged)
  (options : CodecOptions)

include hranged

/-- Every node below a field is ranged. -/
theorem ranged_of_mem_walk {field : Node} (hfield : field ∈ fields) : ∀ m ∈ field.walk, m.Ranged :=
  fun m hm => hranged m (Node.mem_walkList.2 ⟨field, hfield, hm⟩)

/-- Packing against a valid schema does not halt, whatever is packed. -/
theorem packData_eq_lift (data : Value) :
    packData fields data options = lift (FieldGrammar.packData fields data options) := by
  have hdata : writeData fields data options.pointerDepth =
      lift (Packing.writeData fields data options.pointerDepth) := by
    rw [writeData, Packing.writeData]
    cases data.asObject? with
    | none => rfl
    | some entries =>
        exact writeFields_eq_lift (fun field hfield =>
          writeNode_eq_lift (followWrite_eq_lift hranged _ _)
            (ranged_of_mem_walk hranged hfield)) entries
  rw [packData, FieldGrammar.packData, hdata]
  exact lift_bind fun _ _ => rfl

/-- Unpacking against a valid schema does not halt, whatever the octets. -/
theorem unpackData_eq_lift (bytes : List UInt8) :
    unpackData fields bytes options = lift (FieldGrammar.unpackData fields bytes options) := by
  rw [unpackData, FieldGrammar.unpackData, readData, Packing.readData,
    readFields_eq_lift fun field hfield =>
      readNode_eq_lift (followRead_eq_lift hranged _ _) (ranged_of_mem_walk hranged hfield)]
  refine lift_bind fun found _ => ?_
  dsimp only
  split <;> rfl

end

end Checked

/-- **Checked arithmetic changes no result.**  Let the schema be valid.  Whatever the options, data
are packed and octets are unpacked under checked arithmetic as without it: no step halts the run,
and what is returned or reported is the same.  The number of options of an enumeration is taken to
be a 64-bit word, as the length of a list in memory is. -/
theorem checked_eq_unchecked {name : String} {fields : List Node}
    (hvalid : Schema.validate ⟨name, fields⟩ = .ok ())
    (hcount : ∀ node ∈ Node.walkList fields, ∀ e ∈ node.enumeration?,
      e.options.length < UInt64.size) (options : CodecOptions) :
    (∀ data, Checked.packData fields data options =
      Checked.lift (packData fields data options)) ∧
    ∀ bytes, Checked.unpackData fields bytes options =
      Checked.lift (unpackData fields bytes options) := by
  obtain ⟨-, hfields⟩ := Schema.validate_eq_ok_iff.1 hvalid
  have hranged : ∀ m ∈ Node.walkList fields, m.Ranged := fun m hm => by
    obtain ⟨field, hfield, hwalk⟩ := Node.mem_walkList.1 hm
    exact ((hfields field hfield).of_mem_walk hwalk).ranged (hcount m hm)
  exact ⟨Checked.packData_eq_lift hranged options, Checked.unpackData_eq_lift hranged options⟩

/-- A rank, a key of the whole range of 64-bit integers, a share in quarters, and links to further
registers. -/
def registerFields : List Node :=
  [.int "rank" (-2) 3, .int "key" Int64.minValue Int64.maxValue, .fixed "share" (-0.5) 1.0 0.25,
    .array "links" 1 2 (.pointer "link" "register"),
    .union "register" ⟨"state", ["empty", "used"]⟩
      [("empty", []), ("used", [.optional "next" (.pointer "more" "register")])]]

/-- The greatest key, and a register in use that is followed by an empty one. -/
def register : Value :=
  .object [("rank", .int 3), ("key", .int Int64.maxValue), ("share", .fixed 0.75),
    ("links", .array [.object [("state", .string "empty")]]),
    ("register", .object [("state", .string "used"),
      ("next", .object [("state", .string "empty")])])]

/-- A register under checked arithmetic, and octets with an offset beyond the range of `rank`. -/
theorem checked_eq_unchecked_register :
    Schema.validate ⟨"register", registerFields⟩ = .ok () ∧
      (∀ node ∈ Node.walkList registerFields, ∀ e ∈ node.enumeration?,
        e.options.length < UInt64.size) ∧
      Checked.packData registerFields register {} =
        .ok [191, 255, 255, 255, 255, 255, 255, 255, 244, 192] ∧
      Checked.unpackData registerFields [255] {} =
        .error (.refused (.outOfBounds "rank" (.offset 7))) := by
  have hvalid : Schema.validate ⟨"register", registerFields⟩ = .ok () :=
    eq_ok_of_toOption (by decide +kernel)
  have hcount : ∀ node ∈ Node.walkList registerFields, ∀ e ∈ node.enumeration?,
      e.options.length < UInt64.size := by
    decide +kernel
  have hpack : packData registerFields register {} =
      .ok [191, 255, 255, 255, 255, 255, 255, 255, 244, 192] :=
    eq_ok_of_toOption (by decide +kernel)
  have hunpack : unpackData registerFields [255] {} =
      .error (.outOfBounds "rank" (.offset 7)) := rfl
  obtain ⟨hwrite, hread⟩ := checked_eq_unchecked hvalid hcount {}
  exact ⟨hvalid, hcount, by rw [hwrite, hpack, Checked.lift_ok], by rw [hread, hunpack]; rfl⟩

/-- Nodes that no valid schema has do halt a run. -/
example :
    Checked.unpackData [.enumeration ⟨"mode", []⟩] [0] {} = .error (.underflow 0 1) ∧
      Checked.unpackData [.int "rank" 3 2] [0] {} = .error (.misfit (-1)) :=
  ⟨rfl, rfl⟩

end FieldGrammar
