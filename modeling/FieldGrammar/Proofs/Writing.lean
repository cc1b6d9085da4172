import Mathlib
import FieldGrammar.Packing.Writer
import FieldGrammar.Proofs.Lookup
import FieldGrammar.Proofs.Results

/-!
# What can be written

Writing a value against a node succeeds when the value has the kind of the node and its parts can
be written.  There is one equivalence for each kind of node, and each also says which bits are
written: those of the parts, one after the other.  Everything that is proved about written data
starts from these equivalences, so that no other proof opens the writer.

## Main statements

* `Packing.writeFields_eq_ok_iff` — the fields of an object
* `Packing.writeNode_int_eq_ok_iff` and so on — one equivalence for each kind
-/

namespace FieldGrammar

namespace Value

theorem asArray?_eq_some_iff {value : Value} {items : List Value} :
    value.asArray? = some items ↔ value = .array items := by
  cases value <;> simp [asArray?]

/-- Only an object is read as one.  With `asArray?_eq_some_iff` and `isNull_iff` this turns what the
writer asks of a value into an equation for the value. -/
theorem asObject?_eq_some_iff {value : Value} {entries : Entries Value} :
    value.asObject? = some entries ↔ value = .object entries := by
  cases value <;> simp [asObject?]

theorem isNull_iff {value : Value} : value.isNull = true ↔ value = .null := by
  cases value <;> simp [isNull]

end Value

namespace Packing

variable {follow : WritePointer}

/-! ### Options and lengths -/

/-- What can be written as an option is the text of one.  The bits are those of the place of the
option in the list, of the width that the last place needs. -/
theorem writeOption_eq_ok_iff {e : Enumeration} {value : Value} {option : String} {bits : Bits} :
    writeOption e value = .ok (option, bits) ↔
      value = .string option ∧ ∃ index, e.indexOf? option = some index ∧
        bits = Bits.ofNat (Bits.width (lastIndex e.options.length)) index := by
  cases value with
  | string s =>
      rw [writeOption, Value.asString?]
      dsimp only
      cases hindex : e.indexOf? s with
      | none =>
          simp only [reduceCtorEq, Value.string.injEq, false_iff, not_and, not_exists]
          rintro rfl index hsome
          rw [hindex] at hsome
          cases hsome
      | some index =>
          simp only [Except.ok.injEq, Prod.mk.injEq, Value.string.injEq]
          constructor
          · rintro ⟨rfl, rfl⟩
            exact ⟨rfl, index, hindex, rfl⟩
          · rintro ⟨rfl, index', hindex', rfl⟩
            rw [hindex, Option.some.injEq] at hindex'
            exact ⟨rfl, by rw [hindex']⟩
  | null | bool | int | fixed | array | object => simp [writeOption, Value.asString?]

/-- Only options of an enumeration can be written. -/
theorem mem_of_writeOption {e : Enumeration} {value : Value} {option : String} {bits : Bits}
    (h : writeOption e value = .ok (option, bits)) : option ∈ e.options := by
  obtain ⟨-, index, hindex, -⟩ := writeOption_eq_ok_iff.1 h
  obtain ⟨hlt, rfl, -⟩ := List.idxOf?_eq_some_iff.1 hindex
  exact List.getElem_mem hlt

/-- The text of every option can be written.  With `mem_of_writeOption` this decides whether an
enumeration takes a value without a look at its bits. -/
theorem exists_writeOption {e : Enumeration} {option : String} (h : option ∈ e.options) :
    ∃ bits, writeOption e (.string option) = .ok (option, bits) := by
  obtain ⟨index, hindex⟩ := Option.isSome_iff_exists.1 (List.isSome_idxOf?.2 h)
  exact ⟨_, writeOption_eq_ok_iff.2 ⟨rfl, index, hindex, rfl⟩⟩

/-- The length of a list is written when it is within the bounds, which are compared as natural
numbers.  Written is its distance from the least length. -/
theorem writeLength_eq_ok_iff {name : String} {length : Nat} {minLength maxLength : UInt32}
    {bits : Bits} : writeLength name length minLength maxLength = .ok bits ↔
      (minLength.toNat ≤ length ∧ length ≤ maxLength.toNat) ∧
        bits = Bits.ofNat (Bits.width (lengthSpan minLength maxLength))
          (length - minLength.toNat) := by
  rw [writeLength]
  split
  · next h =>
    simp only [reduceCtorEq, false_iff, not_and]
    intro hbounds
    omega
  · next h =>
    rw [not_or, Nat.not_lt, Nat.not_lt] at h
    simp only [Except.ok.injEq, h.1, h.2, true_and]
    exact eq_comm

/-- Elements that can be written as options are the texts of these options.  The elements are
thereby known from the options, so that a list of them needs no other description. -/
theorem forall₂_writeOption_iff {e : Enumeration} {items : List Value}
    {pairs : List (String × Bits)} :
    List.Forall₂ (fun element pair => writeOption e element = .ok pair) items pairs ↔
      items = (pairs.map Prod.fst).map .string ∧
        ∀ pair ∈ pairs, writeOption e (.string pair.1) = .ok pair := by
  constructor
  · intro h
    -- The induction is on the pairing: each step peels one element and its option off both lists.
    induction h with
    | nil => exact ⟨rfl, by simp⟩
    | cons hfirst _ ih =>
        obtain ⟨rfl, hrest⟩ := ih
        obtain ⟨rfl, -⟩ := writeOption_eq_ok_iff.1 hfirst
        exact ⟨rfl, List.forall_mem_cons.2 ⟨hfirst, hrest⟩⟩
  · rintro ⟨rfl, hpairs⟩
    rw [List.map_map, List.forall₂_map_left_iff, List.forall₂_same]
    exact hpairs

/-! ### Fields -/

/-- The bits of a list of fields are those of each field, one after the other.  A field is written
from the entry of its name, or from null where the object has none. -/
theorem writeFields_eq_ok_iff {fields : List Node} {entries : Entries Value} {bits : Bits} :
    writeFields follow fields entries = .ok bits ↔
      ∃ parts, List.Forall₂ (fun field part =>
          writeNode follow field (Entries.getOrNull entries field.name) = .ok part) fields parts ∧
        bits = parts.flatten := by
  induction fields generalizing bits with
  | nil =>
      rw [writeFields]
      constructor
      · intro h
        cases h
        exact ⟨[], .nil, rfl⟩
      · rintro ⟨parts, hparts, rfl⟩
        cases hparts
        rfl
  | cons field rest ih =>
      rw [writeFields, bind_eq_ok_iff]
      constructor
      · rintro ⟨first, hfirst, h⟩
        rw [bind_eq_ok_iff] at h
        obtain ⟨more, hmore, h⟩ := h
        cases h
        obtain ⟨parts, hparts, rfl⟩ := ih.1 hmore
        exact ⟨first :: parts, .cons hfirst hparts, rfl⟩
      · rintro ⟨parts, hparts, rfl⟩
        cases hparts with
        | cons hfirst hparts =>
            refine ⟨_, hfirst, ?_⟩
            rw [ih.2 ⟨_, hparts, rfl⟩]
            rfl

/-- Looking a variant up and writing it is writing it where it stands.  The writer does both in one
recursion over the variants; a variant that is missing is written as no fields. -/
theorem writeVariant_eq (variants : Entries (List Node)) (option : String)
    (entries : Entries Value) :
    writeVariant follow variants option entries =
      writeFields follow ((Entries.get? variants option).getD []) entries :=
  Entries.search_getD_eq (f := (writeVariant follow · option entries)) rfl
    (fun _ _ _ => by rw [writeVariant]) variants

/-! ### Kinds of nodes -/

theorem writeNode_bool_eq_ok_iff {name : String} {value : Value} {bits : Bits} :
    writeNode follow (.bool name) value = .ok bits ↔ ∃ b, value = .bool b ∧ bits = [b] := by
  rw [writeNode]
  cases value <;> simp [Value.asBool?, eq_comm]

/-- An integer is written when it is within the bounds, as its distance from the least one.  The
value may also be a whole number with a point, of which `Value.asInt?` is the integer. -/
theorem writeNode_int_eq_ok_iff {name : String} {min max : Int64} {value : Value} {bits : Bits} :
    writeNode follow (.int name min max) value = .ok bits ↔
      ∃ n, value.asInt? = some n ∧ (min ≤ n ∧ n ≤ max) ∧
        bits = Bits.ofNat (Bits.width (distance min max)) (distance min n) := by
  rw [writeNode, writeInt]
  cases value.asInt? with
  | none => simp
  | some n =>
      simp only [Option.some.injEq, exists_eq_left']
      split
      · next h =>
        simp only [reduceCtorEq, false_iff, not_and]
        rintro ⟨hmin, hmax⟩
        rcases h with h | h
        · exact absurd hmin (Int64.not_le.2 h)
        · exact absurd hmax (Int64.not_le.2 h)
      · next h =>
        rw [not_or, Int64.not_lt, Int64.not_lt] at h
        simp only [Except.ok.injEq, h.1, h.2, true_and]
        exact eq_comm

/-- A number with a point is written when it is finite and its step is within those of the bounds.
What is compared and written are steps of the grid, and the number itself is lost. -/
theorem writeNode_fixed_eq_ok_iff {name : String} {min max precision : Float} {value : Value}
    {bits : Bits} : writeNode follow (.fixed name min max precision) value = .ok bits ↔
      ∃ x, value.asFixed? = some x ∧ x.isFinite = true ∧
        ((Grid.ofPrecision precision).stepsOf min ≤ (Grid.ofPrecision precision).stepsOf x ∧
          (Grid.ofPrecision precision).stepsOf x ≤ (Grid.ofPrecision precision).stepsOf max) ∧
        bits = Bits.ofNat
          (Bits.width (distance ((Grid.ofPrecision precision).stepsOf min)
            ((Grid.ofPrecision precision).stepsOf max)))
          (distance ((Grid.ofPrecision precision).stepsOf min)
            ((Grid.ofPrecision precision).stepsOf x)) := by
  rw [writeNode, writeFixed]
  cases value.asFixed? with
  | none => simp
  | some x =>
      simp only [Option.some.injEq, exists_eq_left']
      -- From here on only the three step numbers matter, not how they were rounded.
      generalize (Grid.ofPrecision precision).stepsOf min = low
      generalize (Grid.ofPrecision precision).stepsOf max = high
      generalize (Grid.ofPrecision precision).stepsOf x = steps
      split
      · next h =>
        simp only [reduceCtorEq, false_iff, not_and]
        rintro hfinite ⟨hlow, hhigh⟩
        rcases h with h | h | h
        · simp [hfinite] at h
        · exact absurd hlow (Int64.not_le.2 h)
        · exact absurd hhigh (Int64.not_le.2 h)
      · next h =>
        rw [not_or, not_or, Int64.not_lt, Int64.not_lt, Bool.not_eq_true, Bool.not_eq_false'] at h
        simp only [Except.ok.injEq, h.1, h.2.1, h.2.2, true_and]
        exact eq_comm

/-- An enumeration is written as the option that the value is the text of. -/
theorem writeNode_enumeration_eq_ok_iff {e : Enumeration} {value : Value} {bits : Bits} :
    writeNode follow (.enumeration e) value = .ok bits ↔
      ∃ option, writeOption e value = .ok (option, bits) := by
  rw [writeNode, bind_eq_ok_iff]
  constructor
  · rintro ⟨⟨option, found⟩, h, heq⟩
    cases heq
    exact ⟨option, h⟩
  · rintro ⟨option, h⟩
    exact ⟨_, h, rfl⟩

/-- Null is one zero bit, and any other value is a one before its own bits.  Whether the inner node
could write null does not matter, since it is never asked to. -/
theorem writeNode_optional_eq_ok_iff {name : String} {inner : Node} {value : Value} {bits : Bits} :
    writeNode follow (.optional name inner) value = .ok bits ↔
      (value = .null ∧ bits = [false]) ∨
        (value ≠ .null ∧
          ∃ rest, writeNode follow inner value = .ok rest ∧ bits = true :: rest) := by
  rw [writeNode, Ne, ← Value.isNull_iff]
  split
  · next h => simp [h, eq_comm]
  · next h =>
    rw [bind_eq_ok_iff]
    simp [h, eq_comm]

/-- An array is its length before its elements, which are all written against the same node. -/
theorem writeNode_array_eq_ok_iff {name : String} {minLength maxLength : UInt32} {item : Node}
    {value : Value} {bits : Bits} :
    writeNode follow (.array name minLength maxLength item) value = .ok bits ↔
      ∃ items length parts, value = .array items ∧
        writeLength name items.length minLength maxLength = .ok length ∧
        List.Forall₂ (fun element part => writeNode follow item element = .ok part) items parts ∧
        bits = length ++ parts.flatten := by
  rw [writeNode]
  constructor
  · intro h
    split at h
    · cases h
    · next items hitems =>
      rw [bind_eq_ok_iff] at h
      obtain ⟨length, hlength, h⟩ := h
      rw [bind_eq_ok_iff] at h
      obtain ⟨parts, hparts, h⟩ := h
      cases h
      exact ⟨items, length, parts, Value.asArray?_eq_some_iff.1 hitems, hlength,
        forall₂_of_mapM hparts, rfl⟩
  · rintro ⟨items, length, parts, rfl, hlength, hparts, rfl⟩
    rw [Value.asArray?]
    dsimp only
    rw [hlength, ok_bind, mapM_of_forall₂ hparts]
    rfl

/-- An array of options is its length before the bits of the options.  The value is given by the
options, as in `forall₂_writeOption_iff`. -/
theorem writeNode_enumArray_eq_ok_iff {name : String} {minLength maxLength : UInt32}
    {e : Enumeration} {value : Value} {bits : Bits} :
    writeNode follow (.enumArray name minLength maxLength e) value = .ok bits ↔
      ∃ (length : Bits) (pairs : List (String × Bits)),
        value = .array ((pairs.map Prod.fst).map .string) ∧
        writeLength name pairs.length minLength maxLength = .ok length ∧
        (∀ pair ∈ pairs, writeOption e (.string pair.1) = .ok pair) ∧
        bits = length ++ (pairs.map Prod.snd).flatten := by
  rw [writeNode]
  constructor
  · intro h
    split at h
    · cases h
    · next items hitems =>
      rw [bind_eq_ok_iff] at h
      obtain ⟨length, hlength, h⟩ := h
      rw [bind_eq_ok_iff] at h
      obtain ⟨pairs, hpairs, h⟩ := h
      cases h
      obtain ⟨rfl, hoptions⟩ := forall₂_writeOption_iff.1 (forall₂_of_mapM hpairs)
      rw [List.length_map, List.length_map] at hlength
      exact ⟨length, pairs, Value.asArray?_eq_some_iff.1 hitems, hlength, hoptions, rfl⟩
  · rintro ⟨length, pairs, rfl, hlength, hoptions, rfl⟩
    rw [Value.asArray?]
    dsimp only
    rw [List.length_map, List.length_map, hlength, ok_bind,
      mapM_of_forall₂ (forall₂_writeOption_iff.2 ⟨rfl, hoptions⟩)]
    rfl

/-- An object is its fields: its name is not written, nor are the entries that no field declares. -/
theorem writeNode_object_eq_ok_iff {name : String} {fields : List Node} {value : Value}
    {bits : Bits} : writeNode follow (.object name fields) value = .ok bits ↔
      ∃ entries, value = .object entries ∧ writeFields follow fields entries = .ok bits := by
  rw [writeNode]
  cases value <;> simp [Value.asObject?]

/-- A union is the option under the discriminator's name before the fields of the variant for it.
Discriminator and fields are taken from the same object. -/
theorem writeNode_union_eq_ok_iff {name : String} {discriminator : Enumeration}
    {variants : Entries (List Node)} {value : Value} {bits : Bits} :
    writeNode follow (.union name discriminator variants) value = .ok bits ↔
      ∃ entries option head rest, value = .object entries ∧
        writeOption discriminator (Entries.getOrNull entries discriminator.name) =
          .ok (option, head) ∧
        writeFields follow ((Entries.get? variants option).getD []) entries = .ok rest ∧
        bits = head ++ rest := by
  rw [writeNode]
  constructor
  · intro h
    split at h
    · cases h
    · next entries hentries =>
      rw [bind_eq_ok_iff] at h
      obtain ⟨⟨option, head⟩, hhead, h⟩ := h
      rw [bind_eq_ok_iff] at h
      obtain ⟨rest, hrest, h⟩ := h
      cases h
      rw [writeVariant_eq] at hrest
      exact ⟨entries, option, head, rest, Value.asObject?_eq_some_iff.1 hentries, hhead, hrest, rfl⟩
  · rintro ⟨entries, option, head, rest, rfl, hhead, hrest, rfl⟩
    rw [Value.asObject?]
    dsimp only
    rw [hhead, ok_bind]
    dsimp only
    rw [writeVariant_eq, hrest]
    rfl

/-! ### Following a pointer -/

section

variable {scope : List Node} {limit : Nat} {name target : String}

theorem followWrite_missing (h : resolveTarget scope target = none) (budget : Nat)
    (value : Value) :
    followWrite scope limit budget name target value = .error (.unresolvedPointer name target) := by
  cases budget <;> simp only [followWrite, h]

/-- When the budget is spent, a pointer that has a target is refused.  The error tells the limit of
the whole run and not the budget, which is zero here. -/
theorem followWrite_zero {node : Node} (h : resolveTarget scope target = some node)
    (value : Value) :
    followWrite scope limit 0 name target value =
      .error (.depthExceeded name (limit + 1) limit) := by
  simp only [followWrite, h]

/-- A pointer is written as its target with a budget that is smaller by one.  This is the step of
every induction on the budget. -/
theorem followWrite_succ {node : Node} (h : resolveTarget scope target = some node)
    (budget : Nat) (value : Value) :
    followWrite scope limit (budget + 1) name target value =
      writeNode (followWrite scope limit budget) node value := by
  simp only [followWrite, h]

end

/-! ### Whole data -/

/-- Data are written as an object of the fields of the schema. -/
theorem writeData_eq_ok_iff {fields : List Node} {data : Value} {pointerDepth : Nat} {bits : Bits} :
    writeData fields data pointerDepth = .ok bits ↔
      ∃ entries, data = .object entries ∧
        writeFields (followWrite fields pointerDepth pointerDepth) fields entries = .ok bits := by
  rw [writeData]
  cases data <;> simp [Value.asObject?]

end Packing

end FieldGrammar
