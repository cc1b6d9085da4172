import Mathlib
import FieldGrammar.Proofs.DecodingErrors
import FieldGrammar.Proofs.PointerTargets
import FieldGrammar.Proofs.Writing

/-!
# How packing fails, and what resolving pointers rules out

Packing data fails because of the data, or at a pointer of the schema: its target is missing, or
more pointers would have to be followed inside one another than the limit allows.  Reading fails
in the same way at pointers.  Both descend through variants and items and enter the targets of
pointers, and come to new pointers there.  All of these are on the walk of the schema, because a
target is found on that walk, and so is everything below it.  Resolving pointers looks at every
pointer of the walk.  Once it has succeeded no missing target is met, however often pointers are
followed from inside the targets of others.

Nothing of this needs the schema to be valid.  A variant that no option finds is not on the walk,
but neither is it written or read.

## Main statements

* `Packing.failsWith_writeNode` — how a node is refused, given how its pointers are
* `failsWith_packData`, `failsWith_unpackData` — how packing and unpacking fail
* `ne_unresolvedPointer_of_resolvePointers` — resolving pointers once is enough
-/

namespace FieldGrammar

/-- The error is about the data: out of bounds, or of the wrong shape. -/
def Error.IsDataFault (e : Error) : Prop :=
  (∃ field fault, e = .outOfBounds field fault) ∨ ∃ field fault, e = .invalidData field fault

namespace Packing

section

variable {Q : Error → Prop} (hQ : ∀ e : Error, e.IsDataFault → Q e)

include hQ

/-! ### Parts of a value -/

/-- A value of the wrong shape is a fault of the data. -/
theorem failsWith_mismatch {α : Type} (field expected : String) (value : Value) :
    FailsWith Q (.error (mismatch field expected value) : Except Error α) :=
  failsWith_error_iff.2 (hQ _ (.inr ⟨_, _, rfl⟩))

/-- A value beyond its bounds is a fault of the data.  The lemmas that follow come down to these
two. -/
theorem failsWith_outOfBounds {α : Type} (field : String) (fault : BoundFault) :
    FailsWith Q (.error (.outOfBounds field fault) : Except Error α) :=
  failsWith_error_iff.2 (hQ _ (.inl ⟨_, _, rfl⟩))

/-- What is no text, or the text of no option, is a mismatch. -/
theorem failsWith_writeOption (e : Enumeration) (value : Value) :
    FailsWith Q (writeOption e value) := by
  rw [writeOption]
  split
  · exact failsWith_mismatch hQ _ _ _
  · split
    · exact failsWith_outOfBounds hQ _ _
    · exact failsWith_ok _

theorem failsWith_writeLength (name : String) (length : Nat) (minLength maxLength : UInt32) :
    FailsWith Q (writeLength name length minLength maxLength) := by
  rw [writeLength]
  split
  · exact failsWith_outOfBounds hQ _ _
  · exact failsWith_ok _

theorem failsWith_writeInt (name : String) (min max : Int64) (value : Value) :
    FailsWith Q (writeInt name min max value) := by
  rw [writeInt]
  split
  · exact failsWith_mismatch hQ _ _ _
  · split
    · exact failsWith_outOfBounds hQ _ _
    · exact failsWith_ok _

/-- A number that is not finite, or whose step is beyond those of the bounds, is out of bounds. -/
theorem failsWith_writeFixed (name : String) (min max precision : Float) (value : Value) :
    FailsWith Q (writeFixed name min max precision value) := by
  rw [writeFixed]
  split
  · exact failsWith_mismatch hQ _ _ _
  · dsimp only
    split
    · exact failsWith_outOfBounds hQ _ _
    · exact failsWith_ok _

/-! ### Nodes -/

variable {follow : WritePointer}

omit hQ in
/-- A list of fields is refused as the first of its fields that is. -/
theorem failsWith_writeFields {fields : List Node}
    (h : ∀ field ∈ fields, ∀ value, FailsWith Q (writeNode follow field value))
    (entries : Entries Value) : FailsWith Q (writeFields follow fields entries) := by
  induction fields with
  | nil => exact failsWith_ok []
  | cons field rest ih =>
      obtain ⟨hfield, hrest⟩ := List.forall_mem_cons.1 h
      rw [writeFields]
      exact (hfield _).bind fun bits _ => (ih hrest).bind fun more _ => failsWith_ok _

/-- **A node refuses data faults only, apart from what its pointers refuse.**  The hypothesis is
about the pointers on the walk of the node and no others, so that it can be met by the walk of a
schema. -/
theorem failsWith_writeNode (node : Node)
    (h : ∀ m ∈ node.walk, ∀ name target, m = .pointer name target →
      ∀ value, FailsWith Q (follow name target value)) (value : Value) :
    FailsWith Q (writeNode follow node value) := by
  induction node generalizing value with
  | bool name =>
      rw [writeNode]
      split
      · exact failsWith_ok _
      · exact failsWith_mismatch hQ _ _ _
  | int name min max => exact failsWith_writeInt hQ name min max value
  | fixed name min max precision => exact failsWith_writeFixed hQ name min max precision value
  | enumeration e =>
      exact (failsWith_writeOption hQ e value).bind fun found _ => failsWith_ok found.2
  | optional name inner ih =>
      rw [writeNode]
      split
      · exact failsWith_ok _
      · refine (ih ?_ value).bind fun bits _ => failsWith_ok _
        exact (Node.forall_mem_walk_iff.1 h).2 inner List.mem_cons_self
  | array name minLength maxLength item ih =>
      have hitem := ih ((Node.forall_mem_walk_iff.1 h).2 item List.mem_cons_self)
      rw [writeNode]
      split
      · exact failsWith_mismatch hQ _ _ _
      · next items _ =>
        refine (failsWith_writeLength hQ _ _ _ _).bind fun length _ => ?_
        exact (FailsWith.mapM fun element _ => hitem element).bind fun parts _ => failsWith_ok _
  | enumArray name minLength maxLength e =>
      rw [writeNode]
      split
      · exact failsWith_mismatch hQ _ _ _
      · next items _ =>
        refine (failsWith_writeLength hQ _ _ _ _).bind fun length _ => ?_
        exact (FailsWith.mapM fun element _ => failsWith_writeOption hQ e element).bind
          fun parts _ => failsWith_ok _
  | object name fields ih =>
      rw [writeNode]
      split
      · exact failsWith_mismatch hQ _ _ _
      · next entries _ =>
        exact failsWith_writeFields (fun field hfield =>
          ih field hfield ((Node.forall_mem_walk_iff.1 h).2 field hfield)) entries
  | union name discriminator variants ih =>
      rw [writeNode]
      split
      · exact failsWith_mismatch hQ _ _ _
      · next entries _ =>
        refine (failsWith_writeOption hQ _ _).bind fun found hfound => ?_
        -- What was written is an option of the discriminator, so its variant is on the walk.
        have hoption := mem_of_writeOption hfound
        have hfields : FailsWith Q (writeVariant follow variants found.1 entries) := by
          rw [writeVariant_eq]
          refine failsWith_writeFields (fun field hfield => ?_) entries
          obtain ⟨entry, hentry, hmem⟩ := Entries.exists_mem_of_mem_getD hfield
          refine ih entry hentry field hmem ((Node.forall_mem_walk_iff.1 h).2 field ?_)
          exact Node.mem_children_union.2 ⟨found.1, hoption, hfield⟩
        exact hfields.bind fun rest _ => failsWith_ok _
  | pointer name target => exact h _ (Node.mem_walk_self _) name target rfl value

end

/-! ### Pointers -/

/-- A pointer on the walk of the schema refuses data faults, a missing target, or more pointers than
the limit.  Its target is on the walk too, and so are all pointers below the target. -/
theorem failsWith_followWrite {scope : List Node} (limit budget : Nat) {name target : String}
    (h : .pointer name target ∈ Node.walkList scope) (value : Value) :
    FailsWith (fun e => e.IsDataFault ∨ e.IsPointerFailure scope limit)
      (followWrite scope limit budget name target value) := by
  -- On the pointers that may still be followed: the pointers of a target are on the same walk.
  induction budget generalizing name target value with
  | zero =>
      cases hresolve : resolveTarget scope target with
      | none =>
          rw [followWrite_missing hresolve]
          exact failsWith_error_iff.2 (.inr ⟨name, target, h, .inl ⟨hresolve, rfl⟩⟩)
      | some node =>
          rw [followWrite_zero hresolve]
          exact failsWith_error_iff.2 (.inr ⟨name, target, h, .inr rfl⟩)
  | succ budget ih =>
      cases hresolve : resolveTarget scope target with
      | none =>
          rw [followWrite_missing hresolve]
          exact failsWith_error_iff.2 (.inr ⟨name, target, h, .inl ⟨hresolve, rfl⟩⟩)
      | some node =>
          rw [followWrite_succ hresolve]
          refine failsWith_writeNode (fun _ => .inl) node ?_ value
          rintro m hm name target rfl
          exact ih (Node.walk_subset_walkList (resolveTarget_some hresolve).2.2 hm)

end Packing

/-! ### Whole data -/

/-- **Packing fails because of the data or at a pointer of the schema.**  The pointer is one of the
walk, whatever route has led to it. -/
theorem failsWith_packData (fields : List Node) (data : Value) (options : CodecOptions) :
    FailsWith (fun e => e.IsDataFault ∨ e.IsPointerFailure fields options.pointerDepth)
      (packData fields data options) := by
  have hwrite : FailsWith (fun e => e.IsDataFault ∨ e.IsPointerFailure fields options.pointerDepth)
      (Packing.writeData fields data options.pointerDepth) := by
    rw [Packing.writeData]
    split
    · exact Packing.failsWith_mismatch (fun _ => .inl) _ _ _
    · next entries _ =>
      refine Packing.failsWith_writeFields (fun field hfield => ?_) entries
      refine Packing.failsWith_writeNode (fun _ => .inl) field ?_
      rintro m hm name target rfl
      exact Packing.failsWith_followWrite _ _ (Node.mem_walkList.2 ⟨field, hfield, hm⟩)
  exact hwrite.bind fun bits _ => failsWith_ok _

/-- **Unpacking fails structurally or at a pointer of the schema.** -/
theorem failsWith_unpackData (fields : List Node) (bytes : List UInt8) (options : CodecOptions) :
    FailsWith (fun e => e.IsStructural ∨ e.IsPointerFailure fields options.pointerDepth)
      (unpackData fields bytes options) :=
  Packing.failsWith_readData fields options.pointerDepth (BitReader.ofBytes bytes)

/-! ### Resolved pointers -/

/-- Once pointers are resolved, each pointer of the walk has a target. -/
theorem resolveTarget_ne_none_of_resolvePointers {schema : Schema}
    (h : schema.resolvePointers = .ok ()) {name target : String}
    (hmem : .pointer name target ∈ Node.walkList schema.fields) :
    resolveTarget schema.fields target ≠ none := by
  intro hnone
  rw [Node.walkList_eq] at hmem
  exact Schema.resolvePointers_eq_ok_iff.1 h _ hmem
    ⟨name, target, rfl, resolveTarget_eq_none_iff.1 hnone⟩

/-- Once pointers are resolved, they fail by being too many. -/
theorem Error.IsPointerFailure.ne_unresolvedPointer {fields : List Node} {limit : Nat} {e : Error}
    (he : e.IsPointerFailure fields limit)
    (hresolved : ∀ name target, .pointer name target ∈ Node.walkList fields →
      resolveTarget fields target ≠ none)
    (field target : String) : e ≠ .unresolvedPointer field target := by
  obtain ⟨name, missing, hmem, ⟨hnone, -⟩ | rfl⟩ := he
  · exact absurd hnone (hresolved name missing hmem)
  · exact nofun

/-- **Resolving pointers once is enough.**  Against the fields of a schema whose pointers are
resolved, valid or not, neither packing nor unpacking meets a pointer without a target, whatever the
data and the octets are and however many pointers may be followed.  A target that is entered brings
no new pointers, as it is part of the walk that has been looked at. -/
theorem ne_unresolvedPointer_of_resolvePointers {name : String} {fields : List Node}
    (h : Schema.resolvePointers ⟨name, fields⟩ = .ok ()) (options : CodecOptions)
    (field target : String) :
    (∀ data, packData fields data options ≠ .error (.unresolvedPointer field target)) ∧
      ∀ bytes, unpackData fields bytes options ≠ .error (.unresolvedPointer field target) := by
  have hresolved : ∀ name target, .pointer name target ∈ Node.walkList fields →
      resolveTarget fields target ≠ none := fun _ _ =>
    resolveTarget_ne_none_of_resolvePointers h
  constructor
  · intro data hdata
    rcases failsWith_packData fields data options _ hdata with
      (⟨_, _, heq⟩ | ⟨_, _, heq⟩) | hpointer
    · cases heq
    · cases heq
    · exact hpointer.ne_unresolvedPointer hresolved field target rfl
  · intro bytes hbytes
    rcases failsWith_unpackData fields bytes options _ hbytes with hstructural | hpointer
    · obtain ⟨fault, heq⟩ := hstructural ""
      cases heq
    · exact hpointer.ne_unresolvedPointer hresolved field target rfl

/-- A chain of links, with a stray variant whose pointer has no target.  The schema is not valid. -/
def strayFields : List Node :=
  [.union "link" ⟨"kind", ["next"]⟩
    [("next", [.pointer "rest" "link"]), ("stray", [.pointer "away" "nowhere"])]]

/-- A chain longer than one pointer reaches. -/
def longChain : Value :=
  .object [("link", .object [("kind", .string "next"),
    ("rest", .object [("kind", .string "next"), ("rest", .object [("kind", .string "stray")])])])]

/-- The stray pointer has no target and the schema is not valid; still resolving succeeds, and
packing fails at the limit alone. -/
theorem ne_unresolvedPointer_of_resolvePointers_stray :
    Schema.resolvePointers ⟨"chain", strayFields⟩ = .ok () ∧
    Schema.validate ⟨"chain", strayFields⟩ ≠ .ok () ∧
    packData strayFields longChain { pointerDepth := 1 } = .error (.depthExceeded "rest" 2 1) ∧
    packData strayFields longChain {} ≠ .error (.unresolvedPointer "away" "nowhere") ∧
    unpackData strayFields [0] {} ≠ .error (.unresolvedPointer "away" "nowhere") := by
  have hresolve : Schema.resolvePointers ⟨"chain", strayFields⟩ = .ok () := rfl
  obtain ⟨hpack, hunpack⟩ := ne_unresolvedPointer_of_resolvePointers hresolve {} "away" "nowhere"
  exact ⟨hresolve, nofun, rfl, hpack longChain, hunpack [0]⟩

end FieldGrammar
