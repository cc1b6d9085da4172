import Mathlib
import FieldGrammar.Proofs.ReadValues
import FieldGrammar.Proofs.Trees

/-!
# What readers inherit from their parts

Every reader of data is composed from four things: a read of a number of bits, a value that is
returned, one reader after another, and a refusal.  A property that all four keep holds of the
reader of every node whose pointers have it.  Following a pointer is either refused or the
reader of its target with a smaller budget, so that such a property holds of the reader of a
whole schema, by induction on the budget.

The refusals are structural: reading within a token reports them as corruption of the token.
Only pointers fail in another way.

## Main definitions

* `Error.IsStructural` — an error that becomes a corrupt token
* `Inherited` — a property of readers that composition keeps

## Main statements

* `Inherited.readNode` — the reader of a node, up to its pointers
* `Inherited.readFields_followRead` — the reader of a schema's fields
-/

namespace FieldGrammar

/-! ### Structural errors -/

/-- Within a token the error is one about the token. -/
def Error.IsStructural (e : Error) : Prop :=
  ∀ token, ∃ fault, e.inToken token = .corruptToken token fault

/-- A reader that meets the end of the bits, or bits that no value has, says so in this form. -/
theorem Error.isStructural_corruptToken (token : String) (fault : TokenFault) :
    (Error.corruptToken token fault).IsStructural :=
  fun _ => ⟨_, rfl⟩

/-- A value beyond the bounds of its field is refused by the reader with the error of the writer.
Within a token it too is corruption of the token. -/
theorem Error.isStructural_outOfBounds (field : String) (fault : BoundFault) :
    (Error.outOfBounds field fault).IsStructural :=
  fun _ => ⟨_, rfl⟩

theorem Error.isStructural_stringTable (fault : TableFault) :
    (Error.stringTable fault).IsStructural :=
  fun _ => ⟨_, rfl⟩

/-! ### Readers -/

/-- A function that reads a value from a bit string. -/
abbrev Reader (α : Type) := BitReader → Except Error (α × BitReader)

/-- Nothing is read. -/
abbrev Reader.refuse {α : Type} (e : Error) : Reader α :=
  fun _ => .error e

/-- Some bits are read as `a`. -/
def Returns {α : Type} (step : Reader α) (a : α) : Prop :=
  ∃ r r', step r = .ok (a, r')

namespace Packing

/-! ### Following a pointer -/

variable {scope : List Node} {limit : Nat} {name target : String}

theorem followRead_missing (h : resolveTarget scope target = none) (budget : Nat) :
    followRead scope limit budget name target =
      Reader.refuse (.unresolvedPointer name target) := by
  funext r
  cases budget <;> simp only [followRead, h]

/-- When the budget is spent, a pointer that has a target is refused, and no bit is read. -/
theorem followRead_zero {node : Node} (h : resolveTarget scope target = some node) :
    followRead scope limit 0 name target =
      Reader.refuse (.depthExceeded name (limit + 1) limit) := by
  funext r
  simp only [followRead, h]

/-- A pointer is read as its target with a budget that is smaller by one. -/
theorem followRead_succ {node : Node} (h : resolveTarget scope target = some node)
    (budget : Nat) :
    followRead scope limit (budget + 1) name target =
      readNode (followRead scope limit budget) node := by
  funext r
  simp only [followRead, h]

end Packing

/-! ### Composition -/

/-- A property of readers that a composed reader has if its parts have it.  An instance is proved
once for each property, and then `readFields_followRead` gives it for every schema. -/
structure Inherited (P : {α : Type} → Reader α → Prop) : Prop where
  /-- A number of bits. -/
  read : ∀ n, P fun r => r.read n
  /-- A value that takes no bits. -/
  ok : ∀ {α : Type} (a : α), P fun r => .ok (a, r)
  /-- One reader after another, which may depend on what the first one returned. -/
  bind : ∀ {α β : Type} {step : Reader α} {next : α × BitReader → Except Error (β × BitReader)},
    P step → (∀ a, Returns step a → P fun r => next (a, r)) → P fun r => step r >>= next
  /-- A refusal of what was read. -/
  refuse : ∀ {α : Type} {e : Error}, e.IsStructural → P (Reader.refuse (α := α) e)

namespace Inherited

variable {P : {α : Type} → Reader α → Prop} (law : Inherited P)

include law

/-- A reader whose result is converted. -/
theorem map {α β : Type} {step : Reader α} (h : P step) (f : α → β) :
    P fun r => step r >>= fun found => .ok (f found.1, found.2) :=
  law.bind h fun a _ => law.ok (f a)

/-- A reader that is repeated a number of times, by induction on the number: none is a value that is
returned, and one more is the reader before the others. -/
theorem repeated {α : Type} {step : Reader α} (h : P step) (n : Nat) :
    P (BitReader.repeated step n) := by
  induction n with
  | zero => exact law.ok []
  | succ n ih =>
      rw [funext (BitReader.repeated_succ step n)]
      exact law.bind h fun first _ => law.map ih (first :: ·)

/-! ### Parts of a value -/

open Packing

/-- The reader of an option is the reader of its number, and a number past the last option is a
refusal. -/
theorem readOption (e : Enumeration) : P (readOption e) := by
  refine law.bind (law.read _) fun index _ => ?_
  dsimp only
  cases e.options[index]? with
  | none => exact law.refuse (Error.isStructural_corruptToken _ _)
  | some option => exact law.ok option

/-- The reader of a length is the reader of its distance from the least one, and a length past the
greatest one is a refusal. -/
theorem readLength (name : String) (minLength maxLength : UInt32) :
    P (readLength name minLength maxLength) := by
  refine law.bind (law.read _) fun offset _ => ?_
  dsimp only
  by_cases h : maxLength.toNat < minLength.toNat + offset
  · simp only [if_pos h]
    exact law.refuse (Error.isStructural_outOfBounds _ _)
  · simp only [if_neg h]
    exact law.ok _

/-- The reader of an offset from the least value.  Both integers and steps are read by it. -/
theorem readOffset (name : String) (low high : Int64) : P (readOffset name low high) := by
  refine law.bind (law.read _) fun offset _ => ?_
  dsimp only
  by_cases h : distance low high < offset
  · simp only [if_pos h]
    exact law.refuse (Error.isStructural_outOfBounds _ _)
  · simp only [if_neg h]
    exact law.ok _

theorem readFixed (name : String) (min max precision : Float) :
    P (readFixed name min max precision) :=
  law.map (law.readOffset name _ _) _

/-! ### Nodes -/

variable {follow : ReadPointer}

/-- The fields of an object, by induction on the list: each is read before those that follow. -/
theorem readFields {fields : List Node} (h : ∀ field ∈ fields, P (readNode follow field)) :
    P (readFields follow fields) := by
  induction fields with
  | nil => exact law.ok []
  | cons field rest ih =>
      obtain ⟨hfield, hrest⟩ := List.forall_mem_cons.1 h
      refine law.bind hfield fun value _ => ?_
      exact law.map (ih hrest) ((field.name, value) :: ·)

/-- **A node is read with the property if its pointers are followed with it.**  Only pointers on the
walk of the node are asked for, so that resolved pointers are enough where the schema is resolved.
-/
theorem readNode (node : Node)
    (h : ∀ m ∈ node.walk, ∀ name target, m = .pointer name target → P (follow name target)) :
    P (readNode follow node) := by
  induction node with
  | bool name => exact law.map (law.read 1) fun bit => Value.bool (bit == 1)
  | int name min max => exact law.map (law.readOffset name min max) Value.int
  | fixed name min max precision =>
      exact law.map (law.readFixed name min max precision) Value.fixed
  | enumeration e => exact law.map (law.readOption e) Value.string
  | optional name inner ih =>
      refine law.bind (law.read 1) fun present _ => ?_
      dsimp only
      by_cases hpresent : present = 1
      · simp only [if_pos hpresent]
        exact ih ((Node.forall_mem_walk_iff.1 h).2 inner List.mem_cons_self)
      · simp only [if_neg hpresent]
        exact law.ok Value.null
  | array name minLength maxLength item ih =>
      refine law.bind (law.readLength name minLength maxLength) fun length _ => ?_
      have hitem := ih ((Node.forall_mem_walk_iff.1 h).2 item List.mem_cons_self)
      exact law.map (law.repeated hitem length) Value.array
  | enumArray name minLength maxLength e =>
      refine law.bind (law.readLength name minLength maxLength) fun length _ => ?_
      exact law.map (law.repeated (law.readOption e) length) fun options =>
        Value.array (options.map .string)
  | object name fields ih =>
      have hfields := law.readFields fun field hfield =>
        ih field hfield ((Node.forall_mem_walk_iff.1 h).2 field hfield)
      exact law.map hfields fun pairs => Value.object (Entries.ofList pairs)
  | union name discriminator variants ih =>
      refine law.bind (law.readOption discriminator) fun option hoption => ?_
      obtain ⟨r, r', hoption⟩ := hoption
      have hfields : P (Packing.readFields follow ((Entries.get? variants option).getD [])) := by
        refine law.readFields fun field hfield => ?_
        obtain ⟨entry, hentry, hmem⟩ := Entries.exists_mem_of_mem_getD hfield
        -- Only options of the discriminator are returned, so the field is on the walk.
        refine ih entry hentry field hmem ((Node.forall_mem_walk_iff.1 h).2 field ?_)
        exact Node.mem_children_union.2 ⟨option, mem_of_readOption hoption, hfield⟩
      simp only [readVariant_eq]
      exact law.map hfields fun pairs => Value.object (Entries.insertAll
        [(discriminator.name, .string option)] (Entries.ofList pairs))
  | pointer name target => exact h _ (Node.mem_walk_self _) name target rfl

/-! ### Pointers -/

variable {scope : List Node} {limit : Nat}

/-- A pointer that is followed is refused, or it is read as its target. -/
theorem followRead
    (hmissing : ∀ name target, .pointer name target ∈ Node.walkList scope →
      resolveTarget scope target = none →
        P (Reader.refuse (α := Value) (.unresolvedPointer name target)))
    (hdepth : ∀ name target, .pointer name target ∈ Node.walkList scope →
      P (Reader.refuse (α := Value) (.depthExceeded name (limit + 1) limit)))
    (budget : Nat) {name target : String} (h : .pointer name target ∈ Node.walkList scope) :
    P (followRead scope limit budget name target) := by
  -- On the pointers that may still be followed: a target is read with one less of them.
  induction budget generalizing name target with
  | zero =>
      cases hresolve : resolveTarget scope target with
      | none => exact followRead_missing hresolve 0 ▸ hmissing name target h hresolve
      | some node => exact followRead_zero hresolve ▸ hdepth name target h
  | succ budget ih =>
      cases hresolve : resolveTarget scope target with
      | none => exact followRead_missing hresolve (budget + 1) ▸ hmissing name target h hresolve
      | some node =>
          rw [followRead_succ hresolve]
          refine law.readNode node fun m hm name target heq => ih ?_
          exact heq ▸ Node.walk_subset_walkList (resolveTarget_some hresolve).2.2 hm

/-- **The fields of a schema are read with the property if its pointers are refused with it.**  What
is left to show are the two refusals, for a missing target and for a budget that is used up. -/
theorem readFields_followRead
    (hmissing : ∀ name target, .pointer name target ∈ Node.walkList scope →
      resolveTarget scope target = none →
        P (Reader.refuse (α := Value) (.unresolvedPointer name target)))
    (hdepth : ∀ name target, .pointer name target ∈ Node.walkList scope →
      P (Reader.refuse (α := Value) (.depthExceeded name (limit + 1) limit))) :
    P (Packing.readFields (Packing.followRead scope limit limit) scope) := by
  refine law.readFields fun field hfield => law.readNode field fun m hm name target heq => ?_
  refine law.followRead hmissing hdepth limit ?_
  exact heq ▸ Node.mem_walkList.2 ⟨field, hfield, hm⟩

end Inherited

end FieldGrammar
