import Mathlib
import FieldGrammar.Proofs.DataRoundTrip
import FieldGrammar.Proofs.Readers

/-!
# What the bound on following pointers does

The bound says how many pointers may be followed inside one another.  It cuts a run off and does
nothing else: under a smaller bound, packing and unpacking are refused with a depth error, or they
end as they do under a greater one, with the same octets, the same value or the same error.  The
two runs are compared node by node.  They do the same until the smaller budget is used up at a
pointer, and the error that is raised there ends the first run (`CutOff`).

What was packed under a bound is also unpacked under it, because reading follows the pointers that
writing followed.  This holds for every schema: it takes no validity to read back *something*.
Hence the same value is unpacked under every greater bound.

## Main definitions

* `CutOff` — a run that is cut off, or ends like another one
* `Packing.Legible` — what is written against a node is read as some value

## Main statements

* `Packing.cutOff_writeNode`, `Packing.cutOff_readNode` — a node, given its pointers
* `Packing.cutOff_followWrite`, `Packing.cutOff_followRead` — pointers under two budgets
* `cutOff_of_pointerDepth_le` — whole data
-/

namespace FieldGrammar

/-! ### Runs that are cut off -/

/-- The first run is cut off at a pointer, because of the limit, or both runs end alike.  The first
run is the one under the smaller bound. -/
def CutOff {α : Type} (limit : Nat) (x y : Except Error α) : Prop :=
  (∃ name, x = .error (.depthExceeded name (limit + 1) limit)) ∨ x = y

section

variable {limit : Nat} {α β : Type}

theorem CutOff.refl (x : Except Error α) : CutOff limit x x :=
  .inr rfl

/-- Runs that go on alike, or are cut off on the way. -/
theorem CutOff.bind {x y : Except Error α} {f g : α → Except Error β} (hxy : CutOff limit x y)
    (hfg : ∀ a, CutOff limit (f a) (g a)) : CutOff limit (x >>= f) (y >>= g) := by
  obtain ⟨name, rfl⟩ | rfl := hxy
  · exact .inl ⟨name, rfl⟩
  · cases x with
    | error e => exact .refl _
    | ok a => exact hfg a

/-- A computation over a list is cut off at the first member that is, and up to there both runs do
the same. -/
theorem CutOff.mapM {f g : α → Except Error β} (h : ∀ a, CutOff limit (f a) (g a))
    (xs : List α) : CutOff limit (xs.mapM f) (xs.mapM g) := by
  induction xs with
  | nil => exact .refl _
  | cons x xs ih =>
      rw [List.mapM_cons, List.mapM_cons]
      exact (h x).bind fun y => ih.bind fun ys => .refl _

/-- A repeated reader likewise, by induction on the number. -/
theorem CutOff.repeated {f g : Reader α} (h : ∀ r, CutOff limit (f r) (g r)) (n : Nat)
    (r : BitReader) : CutOff limit (BitReader.repeated f n r) (BitReader.repeated g n r) := by
  induction n generalizing r with
  | zero => exact .refl _
  | succ n ih =>
      rw [BitReader.repeated_succ, BitReader.repeated_succ]
      exact (h r).bind fun found => (ih found.2).bind fun rest => .refl _

end

namespace Packing

section

variable {limit : Nat}

/-! ### Writing -/

section

variable {follow follow' : WritePointer}

/-- Fields are written alike, or cut off at the first that is. -/
theorem cutOff_writeFields {fields : List Node}
    (h : ∀ field ∈ fields, ∀ value,
      CutOff limit (writeNode follow field value) (writeNode follow' field value))
    (entries : Entries Value) :
    CutOff limit (writeFields follow fields entries) (writeFields follow' fields entries) := by
  induction fields with
  | nil => exact .refl _
  | cons field rest ih =>
      obtain ⟨hfield, hrest⟩ := List.forall_mem_cons.1 h
      rw [writeFields, writeFields]
      exact (hfield _).bind fun bits => (ih hrest).bind fun more => .refl _

/-- **A node is written alike, or cut off, if its pointers are.**  Only the order of the parts
matters: the first part that is cut off ends the first run. -/
theorem cutOff_writeNode
    (hfollow : ∀ name target value,
      CutOff limit (follow name target value) (follow' name target value))
    (node : Node) (value : Value) :
    CutOff limit (writeNode follow node value) (writeNode follow' node value) := by
  induction node generalizing value with
  | bool | int | fixed | enumeration | enumArray =>
      rw [writeNode, writeNode]
      exact .refl _
  | optional name inner ih =>
      rw [writeNode, writeNode]
      split
      · exact .refl _
      · exact (ih value).bind fun bits => .refl _
  | array name minLength maxLength item ih =>
      rw [writeNode, writeNode]
      split
      · exact .refl _
      · next items _ =>
        refine (CutOff.refl _).bind fun length => ?_
        exact (CutOff.mapM ih items).bind fun parts => .refl _
  | object name fields ih =>
      rw [writeNode, writeNode]
      split
      · exact .refl _
      · next entries _ => exact cutOff_writeFields ih entries
  | union name discriminator variants ih =>
      rw [writeNode, writeNode]
      split
      · exact .refl _
      · next entries _ =>
        refine (CutOff.refl _).bind fun found => ?_
        dsimp only
        rw [writeVariant_eq, writeVariant_eq]
        exact (cutOff_writeFields (Entries.forall_mem_getD ih found.1) entries).bind
          fun rest => .refl _
  | pointer name target => exact hfollow name target value

end

/-- **With a smaller budget a pointer is written alike, or cut off.** -/
theorem cutOff_followWrite (scope : List Node) (limit' : Nat) {budget budget' : Nat}
    (h : budget ≤ budget') (name target : String) (value : Value) :
    CutOff limit (followWrite scope limit budget name target value)
      (followWrite scope limit' budget' name target value) := by
  -- On the smaller budget, for all greater ones: entering a target takes one from both.
  induction budget generalizing budget' name target value with
  | zero =>
      cases hresolve : resolveTarget scope target with
      | none =>
          rw [followWrite_missing hresolve, followWrite_missing hresolve]
          exact .refl _
      | some node => exact .inl ⟨name, followWrite_zero hresolve value⟩
  | succ budget ih =>
      cases budget' with
      | zero => exact absurd h (Nat.not_succ_le_zero budget)
      | succ budget' =>
          cases hresolve : resolveTarget scope target with
          | none =>
              rw [followWrite_missing hresolve, followWrite_missing hresolve]
              exact .refl _
          | some node =>
              rw [followWrite_succ hresolve, followWrite_succ hresolve]
              exact cutOff_writeNode (ih (Nat.le_of_succ_le_succ h)) node value

/-! ### Reading -/

section

variable {follow follow' : ReadPointer}

/-- Fields are read alike, or cut off at the first that is. -/
theorem cutOff_readFields {fields : List Node}
    (h : ∀ field ∈ fields, ∀ r, CutOff limit (readNode follow field r) (readNode follow' field r))
    (r : BitReader) :
    CutOff limit (readFields follow fields r) (readFields follow' fields r) := by
  induction fields generalizing r with
  | nil => exact .refl _
  | cons field rest ih =>
      obtain ⟨hfield, hrest⟩ := List.forall_mem_cons.1 h
      rw [readFields, readFields]
      exact (hfield r).bind fun found => (ih hrest found.2).bind fun more => .refl _

/-- **A node is read alike, or cut off, if its pointers are.** -/
theorem cutOff_readNode
    (hfollow : ∀ name target r, CutOff limit (follow name target r) (follow' name target r))
    (node : Node) (r : BitReader) :
    CutOff limit (readNode follow node r) (readNode follow' node r) := by
  induction node generalizing r with
  | bool | int | fixed | enumeration | enumArray =>
      rw [readNode, readNode]
      exact .refl _
  | optional name inner ih =>
      rw [readNode, readNode]
      refine (CutOff.refl _).bind fun present => ?_
      dsimp only
      split
      · exact ih present.2
      · exact .refl _
  | array name minLength maxLength item ih =>
      rw [readNode, readNode]
      refine (CutOff.refl _).bind fun length => ?_
      exact (CutOff.repeated ih length.1 length.2).bind fun items => .refl _
  | object name fields ih =>
      rw [readNode, readNode]
      exact (cutOff_readFields ih r).bind fun pairs => .refl _
  | union name discriminator variants ih =>
      rw [readNode, readNode]
      refine (CutOff.refl _).bind fun found => ?_
      dsimp only
      rw [readVariant_eq, readVariant_eq]
      have hfields := cutOff_readFields (Entries.forall_mem_getD ih found.1) found.2
      exact hfields.bind fun pairs => .refl _
  | pointer name target => exact hfollow name target r

end

/-- **With a smaller budget a pointer is read alike, or cut off.** -/
theorem cutOff_followRead (scope : List Node) (limit' : Nat) {budget budget' : Nat}
    (h : budget ≤ budget') (name target : String) (r : BitReader) :
    CutOff limit (followRead scope limit budget name target r)
      (followRead scope limit' budget' name target r) := by
  induction budget generalizing budget' name target r with
  | zero =>
      cases hresolve : resolveTarget scope target with
      | none =>
          rw [followRead_missing hresolve, followRead_missing hresolve]
          exact .refl _
      | some node => exact .inl ⟨name, congrFun (followRead_zero hresolve) r⟩
  | succ budget ih =>
      cases budget' with
      | zero => exact absurd h (Nat.not_succ_le_zero budget)
      | succ budget' =>
          cases hresolve : resolveTarget scope target with
          | none =>
              rw [followRead_missing hresolve, followRead_missing hresolve]
              exact .refl _
          | some node =>
              rw [followRead_succ hresolve, followRead_succ hresolve]
              exact cutOff_readNode (ih (Nat.le_of_succ_le_succ h)) node r

end

/-! ### What was written is read -/

section

variable {followW : WritePointer} {followR : ReadPointer}

/-- What is written against the node is read, as some value.  This is weaker than reading back a
normal form, and in exchange it is kept without validity: repeated names change what is read, not
whether it is. -/
def Legible (followW : WritePointer) (followR : ReadPointer) (node : Node) : Prop :=
  ∀ value bits, writeNode followW node value = .ok bits →
    ∃ found, Reads (readNode followR node) bits found

theorem ReadsBack.legible {followN : ProjectPointer} {node : Node}
    (h : ReadsBack followW followR followN node) : Legible followW followR node :=
  fun value bits hwrite => ⟨_, h value bits hwrite⟩

/-- Fields that are written are read one after the other. -/
theorem exists_reads_fields {fields : List Node} {entries : Entries Value} {bits : Bits}
    (hfields : ∀ field ∈ fields, Legible followW followR field)
    (h : writeFields followW fields entries = .ok bits) :
    ∃ pairs, Reads (readFields followR fields) bits pairs := by
  induction fields generalizing bits with
  | nil =>
      cases h
      exact ⟨[], Reads.nil []⟩
  | cons field rest ih =>
      obtain ⟨hfield, hrest⟩ := List.forall_mem_cons.1 hfields
      obtain ⟨first, hfirst, h⟩ := bind_eq_ok_iff.1 h
      obtain ⟨more, hmore, h⟩ := bind_eq_ok_iff.1 h
      cases h
      obtain ⟨value, hvalue⟩ := hfield _ _ hfirst
      obtain ⟨pairs, hpairs⟩ := ih hrest hmore
      refine ⟨(field.name, value) :: pairs, fun offset after => ?_⟩
      rw [readFields, List.append_assoc, hvalue, ok_bind]
      dsimp only
      rw [hpairs, ok_bind, List.length_append, ← Nat.add_assoc]
      rfl

/-- Behind its presence bit, an optional value is read if the inner node is. -/
theorem legible_optional (name : String) {inner : Node} (hinner : Legible followW followR inner) :
    Legible followW followR (.optional name inner) := by
  intro value bits h
  rcases writeNode_optional_eq_ok_iff.1 h with ⟨rfl, rfl⟩ | ⟨-, more, hmore, rfl⟩
  · refine ⟨.null, fun offset rest => ?_⟩
    rw [readNode, List.singleton_append, read_bit]
    rfl
  · obtain ⟨found, hfound⟩ := hinner value more hmore
    refine ⟨found, fun offset rest => ?_⟩
    rw [readNode, List.cons_append, read_bit, ok_bind]
    dsimp only
    rw [if_pos (show true.toNat = 1 from rfl), hfound, List.length_cons, Nat.add_assoc,
      Nat.add_comm 1]

/-- The items of an array are read one by one, and there are as many as its length says. -/
theorem legible_array (name : String) (minLength maxLength : UInt32) {item : Node}
    (hitem : Legible followW followR item) :
    Legible followW followR (.array name minLength maxLength item) := by
  intro value bits h
  obtain ⟨items, length, parts, rfl, hlength, hparts, rfl⟩ := writeNode_array_eq_ok_iff.1 h
  have hfound : ∃ found : List Value, found.length = items.length ∧
      List.Forall₂ (Reads (readNode followR item)) parts found := by
    clear h hlength
    induction hparts with
    | nil => exact ⟨[], rfl, .nil⟩
    | cons hfirst _ ih =>
        obtain ⟨element, helement⟩ := hitem _ _ hfirst
        obtain ⟨found, hsize, hfound⟩ := ih
        exact ⟨element :: found, by rw [List.length_cons, List.length_cons, hsize],
          .cons helement hfound⟩
  obtain ⟨found, hsize, hfound⟩ := hfound
  exact ⟨.array found, reads_items (hsize ▸ hlength) hfound .array⟩

/-- An object is read if its fields are. -/
theorem legible_object (name : String) {fields : List Node}
    (hfields : ∀ field ∈ fields, Legible followW followR field) :
    Legible followW followR (.object name fields) := by
  intro value bits h
  obtain ⟨entries, rfl, hwrite⟩ := writeNode_object_eq_ok_iff.1 h
  obtain ⟨pairs, hpairs⟩ := exists_reads_fields hfields hwrite
  exact ⟨.object (Entries.ofList pairs), hpairs.map fun pairs =>
    Value.object (Entries.ofList pairs)⟩

/-- A union is read if the fields of the chosen variant are.  The variant is found in reading as it
was in writing. -/
theorem legible_union (name : String) (discriminator : Enumeration)
    {variants : Entries (List Node)}
    (hvariants : ∀ entry ∈ variants, ∀ field ∈ entry.2, Legible followW followR field) :
    Legible followW followR (.union name discriminator variants) := by
  intro value bits h
  obtain ⟨entries, option, head, rest, rfl, hhead, hrest, rfl⟩ := writeNode_union_eq_ok_iff.1 h
  obtain ⟨pairs, hpairs⟩ := exists_reads_fields (Entries.forall_mem_getD hvariants option) hrest
  refine ⟨.object (Entries.insertAll [(discriminator.name, .string option)]
    (Entries.ofList pairs)), fun offset after => ?_⟩
  rw [readNode, List.append_assoc, reads_option hhead, ok_bind]
  dsimp only
  rw [readVariant_eq, hpairs, ok_bind, List.length_append, ← Nat.add_assoc]
  rfl

/-- **What is written against a node is read**, if this holds at pointers.  No validity is needed:
where names repeat, the value that is read is another one, but it is read from the same bits. -/
theorem legible_node (hfollow : ∀ name target, Legible followW followR (.pointer name target))
    (node : Node) : Legible followW followR node := by
  -- Leaves are read whatever is read at pointers.
  have hleaf : ∀ {leaf}, ReadsBack followW followR (fun _ _ value => value) leaf →
      Legible followW followR leaf := fun h => h.legible
  induction node with
  | bool name => exact hleaf (readsBack_bool name)
  | int name min max => exact hleaf (readsBack_int name min max)
  | fixed name min max precision => exact hleaf (readsBack_fixed name min max precision)
  | enumeration e => exact hleaf (readsBack_enumeration e)
  | optional name inner ih => exact legible_optional name ih
  | array name minLength maxLength item ih => exact legible_array name minLength maxLength ih
  | enumArray name minLength maxLength e =>
      exact hleaf (readsBack_enumArray name minLength maxLength e)
  | object name fields ih => exact legible_object name ih
  | union name discriminator variants ih => exact legible_union name discriminator ih
  | pointer name target => exact hfollow name target

end

/-- What is written at a pointer is read under the same bound. -/
theorem legible_follow (scope : List Node) (limit budget : Nat) (name target : String) :
    Legible (followWrite scope limit budget) (followRead scope limit budget)
      (.pointer name target) := by
  -- On the pointers that may still be followed, of which reading and writing count the same.
  induction budget generalizing name target with
  | zero =>
      intro value bits h
      rw [writeNode_pointer, followWrite] at h
      split at h <;> cases h
  | succ budget ih =>
      intro value bits h
      rw [writeNode_pointer] at h
      cases hresolve : resolveTarget scope target with
      | none =>
          rw [followWrite_missing hresolve] at h
          cases h
      | some node =>
          rw [followWrite_succ hresolve] at h
          obtain ⟨found, hfound⟩ := legible_node ih node value bits h
          refine ⟨found, fun offset rest => ?_⟩
          rw [readNode_pointer, followRead_succ hresolve]
          exact hfound offset rest

end Packing

/-! ### Whole data -/

section

variable {fields : List Node} {near far : CodecOptions}

/-- Under a smaller bound, packing is cut off or does the same. -/
theorem cutOff_packData (h : near.pointerDepth ≤ far.pointerDepth) (data : Value) :
    CutOff near.pointerDepth (packData fields data near) (packData fields data far) := by
  rw [packData, packData, Packing.writeData, Packing.writeData]
  refine CutOff.bind ?_ fun bits => .refl _
  split
  · exact .refl _
  · next entries _ =>
    refine Packing.cutOff_writeFields (fun field _ => ?_) entries
    exact Packing.cutOff_writeNode (Packing.cutOff_followWrite fields far.pointerDepth h) field

/-- Under a smaller bound, unpacking is cut off or does the same. -/
theorem cutOff_unpackData (h : near.pointerDepth ≤ far.pointerDepth) (bytes : List UInt8) :
    CutOff near.pointerDepth (unpackData fields bytes near) (unpackData fields bytes far) := by
  rw [unpackData, unpackData, Packing.readData, Packing.readData]
  refine CutOff.bind ?_ fun found => .refl _
  refine Packing.cutOff_readFields (fun field _ => ?_) _
  exact Packing.cutOff_readNode (Packing.cutOff_followRead fields far.pointerDepth h) field

/-- What was packed is unpacked under the same bound, whether the schema is valid or not.  This is
what turns a comparison of two bounds in packing into one in unpacking. -/
theorem exists_unpackData_of_packData {data : Value} {options : CodecOptions} {bytes : List UInt8}
    (h : packData fields data options = .ok bytes) :
    ∃ value, unpackData fields bytes options = .ok value := by
  obtain ⟨bits, hbits, rfl⟩ := packData_eq_ok_iff.1 h
  rw [Packing.writeData] at hbits
  split at hbits
  · cases hbits
  · next entries _ =>
    obtain ⟨pairs, hpairs⟩ := Packing.exists_reads_fields (fun field _ =>
      Packing.legible_node (Packing.legible_follow fields options.pointerDepth
        options.pointerDepth) field) hbits
    obtain ⟨pad, hpad, hbytes⟩ := Bits.ofBytes_toBytes bits
    refine ⟨.object (Entries.ofList pairs), ?_⟩
    rw [unpackData, Packing.readData, BitReader.ofBytes, hbytes, hpairs, ok_bind]
    dsimp only
    rw [BitReader.remaining, if_neg (by rw [List.length_replicate]; omega)]
    rfl

/-- **The bound on following pointers only cuts off.**  Under a smaller bound, packing and unpacking
are refused with a depth error, or end as under a greater one, be it with octets, with a value or
with an error.  What was packed under the smaller bound is unpacked to the same value under both.
So raising the bound never changes a result that was there before. -/
theorem cutOff_of_pointerDepth_le (h : near.pointerDepth ≤ far.pointerDepth) :
    (∀ data, CutOff near.pointerDepth (packData fields data near) (packData fields data far)) ∧
    (∀ bytes, CutOff near.pointerDepth (unpackData fields bytes near)
      (unpackData fields bytes far)) ∧
    ∀ data bytes, packData fields data near = .ok bytes →
      ∃ value, unpackData fields bytes near = .ok value ∧
        unpackData fields bytes far = .ok value := by
  refine ⟨cutOff_packData h, cutOff_unpackData h, fun data bytes hpack => ?_⟩
  obtain ⟨value, hvalue⟩ := exists_unpackData_of_packData hpack
  rcases @cutOff_unpackData fields near far h bytes with ⟨name, hcut⟩ | hsame
  · rw [hvalue] at hcut
    cases hcut
  · exact ⟨value, hvalue, hsame ▸ hvalue⟩

end

/-- The linked leaf follows one pointer: a bound of zero cuts it off, and the octets of a bound of
one are unpacked alike under the default bound. -/
theorem cutOff_of_pointerDepth_le_linkedLeaf :
    packData linkedShapes linkedLeaf { pointerDepth := 0 } = .error (.depthExceeded "next" 1 0) ∧
    packData linkedShapes linkedLeaf { pointerDepth := 1 } = .ok [194, 128] ∧
    ∃ value, unpackData linkedShapes [194, 128] { pointerDepth := 1 } = .ok value ∧
      unpackData linkedShapes [194, 128] {} = .ok value := by
  have hpack : packData linkedShapes linkedLeaf { pointerDepth := 1 } = .ok [194, 128] :=
    eq_ok_of_toOption (by decide +kernel)
  obtain ⟨-, -, hsame⟩ := @cutOff_of_pointerDepth_le linkedShapes { pointerDepth := 1 } {}
    (by decide)
  exact ⟨rfl, hpack, hsame linkedLeaf [194, 128] hpack⟩

end FieldGrammar
