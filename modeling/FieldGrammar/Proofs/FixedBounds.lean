import Mathlib
import FieldGrammar.Proofs.Grids
import FieldGrammar.Proofs.IntegerPositions

/-!
# Bounds of fixed-point fields

A fixed-point field declares its bounds as numbers, and compares numbers of steps.  This module says
what the difference comes to.  Writing data *reaches* a node with a value when everything before it
has been written (`Packing.Reaches`); what fails there is what packing fails with.

**Numbers beyond a bound** are at no fewer steps than the bound, since counting steps keeps the
order.  At more steps they are refused as out of bounds.  At the same number of steps they count as
the bound: they are accepted, written like the bound, and read back as what the bound is read back
as.  This happens to numbers less than a step beyond a bound, and, since steps are counted in 64
bits, to every number beyond a bound that is itself that many steps away.

## Main definitions

* `Grid.CountsAs` — finite, and at the number of steps of a bound
* `Packing.Reaches`, `ReachesData` — the nodes and values that are reached

## Main statements

* `Packing.Reaches.error` — the first failure is the failure of the whole
* `Packing.writeNode_fixed_of_outside` — a number beyond a bound at its field
* `outOfBounds_or_countsAs` — packed data
* `exists_packData_beyond_bounds` — numbers beyond their bounds that are accepted
-/

namespace FieldGrammar

/-! ### Numbers beyond a bound -/

/-- The number is finite and has as many steps as the bound.  Bounds are compared by steps, so such
a number is accepted even if it lies beyond the bound. -/
def Grid.CountsAs (precision x bound : Float) : Prop :=
  x.isFinite = true ∧
    (Grid.ofPrecision precision).stepsOf x = (Grid.ofPrecision precision).stepsOf bound

/-- Of two finite numbers, at most one is less than the other. -/
theorem Binary64.not_lt_of_lt {x y : Float} (hx : x.isFinite = true) (hy : y.isFinite = true)
    (h : x < y) : ¬y < x := by
  obtain ⟨p, hp⟩ := isFinite_iff.1 hx
  obtain ⟨q, hq⟩ := isFinite_iff.1 hy
  rw [lt_iff hp hq] at h
  rw [lt_iff hq hp]
  exact h.not_gt

namespace Packing

variable {name : String} {min max precision x : Float}

/-- Counting steps keeps a number below the lower bound or above the upper one on its side. -/
theorem stepsOf_le_of_lt (hvalid : (Node.fixed name min max precision).Valid)
    (hx : x.isFinite = true) :
    (x < min → (Grid.ofPrecision precision).stepsOf x ≤ (Grid.ofPrecision precision).stepsOf min) ∧
      (max < x →
        (Grid.ofPrecision precision).stepsOf max ≤ (Grid.ofPrecision precision).stepsOf x) := by
  obtain ⟨⟨hmin, hmax, hprecision⟩, -, hpos⟩ := Node.valid_fixed_iff.1 hvalid
  exact ⟨fun h => Grid.stepsOf_le_of_not_lt hprecision hpos hx hmin
      (Binary64.not_lt_of_lt hx hmin h),
    fun h => Grid.stepsOf_le_of_not_lt hprecision hpos hmax hx (Binary64.not_lt_of_lt hmax hx h)⟩

/-- **A number beyond a bound is out of bounds**, unless it counts as the bound.  Counting steps
keeps the order, so no other number beyond the bound has steps between those of the bounds. -/
theorem writeNode_fixed_of_outside (hvalid : (Node.fixed name min max precision).Valid)
    {value : Value} (hx : value.asFixed? = some x)
    (h : x < min ∧ ¬Grid.CountsAs precision x min ∨ max < x ∧ ¬Grid.CountsAs precision x max)
    (follow : WritePointer) :
    writeNode follow (.fixed name min max precision) value =
      .error (.outOfBounds name (.fixed x min max)) := by
  rw [writeNode, writeFixed, hx]
  refine if_pos ?_
  by_cases hfinite : x.isFinite = true
  · obtain ⟨hbelow, habove⟩ := stepsOf_le_of_lt hvalid hfinite
    right
    rcases h with ⟨hlt, hcounts⟩ | ⟨hlt, hcounts⟩
    · exact .inl (Int64.lt_of_le_of_ne (hbelow hlt) fun heq => hcounts ⟨hfinite, heq⟩)
    · exact .inr (Int64.lt_of_le_of_ne (habove hlt) fun heq => hcounts ⟨hfinite, heq.symm⟩)
  · exact .inl (by simp [hfinite])

/-- A number between the steps of the bounds is between the bounds, or it counts as one of them. -/
theorem between_or_countsAs (hvalid : (Node.fixed name min max precision).Valid)
    (hx : x.isFinite = true)
    (hlow : (Grid.ofPrecision precision).stepsOf min ≤ (Grid.ofPrecision precision).stepsOf x)
    (hhigh : (Grid.ofPrecision precision).stepsOf x ≤ (Grid.ofPrecision precision).stepsOf max) :
    (min ≤ x ∧ x ≤ max) ∨ (x < min ∧ Grid.CountsAs precision x min) ∨
      (max < x ∧ Grid.CountsAs precision x max) := by
  obtain ⟨⟨hmin, hmax, -⟩, -⟩ := Node.valid_fixed_iff.1 hvalid
  obtain ⟨hbelow, habove⟩ := stepsOf_le_of_lt hvalid hx
  by_cases hlt : x < min
  · exact .inr (.inl ⟨hlt, hx, Int64.le_antisymm (hbelow hlt) hlow⟩)
  · by_cases hgt : max < x
    · exact .inr (.inr ⟨hgt, hx, Int64.le_antisymm hhigh (habove hgt)⟩)
    · exact .inl ⟨(Binary64.not_lt_iff hmin hx).1 hlt, (Binary64.not_lt_iff hx hmax).1 hgt⟩

/-! ### Reaching a node -/

/-- Writing the value against the node, with a number of pointers left to follow, comes to the node
`m` with the value `v`: whatever stands before it has been written. -/
inductive Reaches (scope : List Node) (limit : Nat) :
    (budget : Nat) → Node → Value → (m : Node) → (v : Value) → Prop
  | here {budget : Nat} {m : Node} {v : Value} : Reaches scope limit budget m v m v
  | optional {budget : Nat} {name : String} {inner m : Node} {value v : Value}
      (hvalue : value ≠ .null) (h : Reaches scope limit budget inner value m v) :
      Reaches scope limit budget (.optional name inner) value m v
  | item {budget : Nat} {name : String} {minLength maxLength : UInt32} {item m : Node}
      (before : List Value) {after : List Value} {element v : Value}
      (hlength : minLength.toNat ≤ (before ++ element :: after).length ∧
        (before ++ element :: after).length ≤ maxLength.toNat)
      (hbefore : ∀ earlier ∈ before, Writable (followWrite scope limit budget) item earlier)
      (h : Reaches scope limit budget item element m v) :
      Reaches scope limit budget (.array name minLength maxLength item)
        (.array (before ++ element :: after)) m v
  | field {budget : Nat} {name : String} (before : List Node) {after : List Node}
      {field m : Node} {entries : Entries Value} {v : Value}
      (hbefore : ∀ earlier ∈ before,
        Writable (followWrite scope limit budget) earlier (Entries.getOrNull entries earlier.name))
      (h : Reaches scope limit budget field (Entries.getOrNull entries field.name) m v) :
      Reaches scope limit budget (.object name (before ++ field :: after)) (.object entries) m v
  | variant {budget : Nat} {name : String} {discriminator : Enumeration}
      {variants : Entries (List Node)} {option : String} (before : List Node) {after : List Node}
      {field m : Node} {entries : Entries Value} {v : Value}
      (hchosen : Entries.getOrNull entries discriminator.name = .string option)
      (hoption : option ∈ discriminator.options)
      (hfields : (Entries.get? variants option).getD [] = before ++ field :: after)
      (hbefore : ∀ earlier ∈ before,
        Writable (followWrite scope limit budget) earlier (Entries.getOrNull entries earlier.name))
      (h : Reaches scope limit budget field (Entries.getOrNull entries field.name) m v) :
      Reaches scope limit budget (.union name discriminator variants) (.object entries) m v
  | pointer {budget : Nat} {name target : String} {node m : Node} {value v : Value}
      (htarget : resolveTarget scope target = some node)
      (h : Reaches scope limit budget node value m v) :
      Reaches scope limit (budget + 1) (.pointer name target) value m v

/-- What follows written fields and fails is what the fields fail with. -/
theorem writeFields_error {follow : WritePointer} {before after : List Node} {field : Node}
    {entries : Entries Value} {e : Error}
    (hbefore : ∀ earlier ∈ before,
      Writable follow earlier (Entries.getOrNull entries earlier.name))
    (h : writeNode follow field (Entries.getOrNull entries field.name) = .error e) :
    writeFields follow (before ++ field :: after) entries = .error e := by
  induction before with
  | nil => rw [List.nil_append, writeFields, h, error_bind]
  | cons first before ih =>
      obtain ⟨⟨bits, hbits⟩, hrest⟩ := List.forall_mem_cons.1 hbefore
      rw [List.cons_append, writeFields, hbits, ok_bind, ih hrest, error_bind]

namespace Reaches

variable {scope : List Node} {limit budget : Nat} {node m : Node} {value v : Value}

/-- **The first failure is the failure of the whole.**  What stands before has been written, and
what comes after is never looked at. -/
theorem error (h : Reaches scope limit budget node value m v) {e : Error}
    (he : ∀ follow, writeNode follow m v = .error e) :
    writeNode (followWrite scope limit budget) node value = .error e := by
  induction h with
  | here => exact he _
  | optional hvalue _ ih =>
      rw [writeNode, if_neg (mt Value.isNull_iff.1 hvalue), ih he, error_bind]
  | item before hlength hbefore _ ih =>
      rw [writeNode, Value.asArray?]
      dsimp only
      rw [writeLength_eq_ok_iff.2 ⟨hlength, rfl⟩, ok_bind, mapM_append_error hbefore (ih he),
        error_bind]
  | field before hbefore _ ih =>
      rw [writeNode, Value.asObject?]
      exact writeFields_error hbefore (ih he)
  | variant before hchosen hoption hfields hbefore _ ih =>
      obtain ⟨head, hhead⟩ := exists_writeOption hoption
      rw [writeNode, Value.asObject?]
      dsimp only
      rw [hchosen, hhead, ok_bind, writeVariant_eq, hfields, writeFields_error hbefore (ih he),
        error_bind]
  | pointer htarget _ ih =>
      rw [writeNode, followWrite_succ htarget]
      exact ih he

/-- What is reached is visited.  A position that writing comes to is one that the data has by its
schema. -/
theorem visits (h : Reaches scope limit budget node value m v) :
    ∃ path, Visits scope budget node value path m v := by
  induction h with
  | here => exact ⟨[], .here⟩
  | optional hvalue _ ih =>
      obtain ⟨path, hpath⟩ := ih
      exact ⟨path, .optional hvalue hpath⟩
  | item _ _ _ _ ih =>
      obtain ⟨path, hpath⟩ := ih
      exact ⟨_, .item (List.getElem?_append_right le_rfl |>.trans (by simp)) hpath⟩
  | field _ _ _ ih =>
      obtain ⟨path, hpath⟩ := ih
      exact ⟨_, .field List.mem_append_cons_self hpath⟩
  | variant _ hchosen _ hfields _ _ ih =>
      obtain ⟨path, hpath⟩ := ih
      exact ⟨_, .variant hchosen (hfields ▸ List.mem_append_cons_self) hpath⟩
  | pointer htarget _ ih =>
      obtain ⟨path, hpath⟩ := ih
      exact ⟨path, .pointer htarget hpath⟩

end Reaches

/-- What is visited in a valid tree is valid. -/
theorem Visits.valid {scope : List Node} {budget : Nat} {node m : Node} {value v : Value}
    {path : List Value.Step} (h : Visits scope budget node value path m v)
    (hscope : ∀ field ∈ scope, field.Valid) (hvalid : node.Valid) : m.Valid := by
  induction h with
  | here => exact hvalid
  | optional _ _ ih => exact ih (Node.valid_optional_iff.1 hvalid)
  | item _ _ ih => exact ih (Node.valid_array_iff.1 hvalid).2
  | field hfield _ ih => exact ih ((Node.valid_object_iff.1 hvalid).2 _ hfield)
  | variant _ hfield _ ih =>
      obtain ⟨entry, hentry, hmem⟩ := Entries.exists_mem_of_mem_getD hfield
      exact ih (((Node.valid_union_iff.1 hvalid).2.2 entry hentry).2 _ hmem)
  | pointer htarget _ ih => exact ih (valid_of_resolveTarget hscope htarget)

/-- What is visited at a fixed-point field is a finite number between the steps of the bounds, and
its place in the normal form has the number at its steps. -/
theorem Visits.fixed {scope : List Node} {limit budget : Nat} {node : Node} {value v : Value}
    {path : List Value.Step} {name : String} {min max precision : Float}
    (h : Visits scope budget node value path (.fixed name min max precision) v)
    (hscope : ∀ field ∈ scope, field.Valid) (hvalid : node.Valid)
    (hwrite : Writable (followWrite scope limit budget) node value) :
    ∃ x, v.asFixed? = some x ∧ x.isFinite = true ∧
      ((Grid.ofPrecision precision).stepsOf min ≤ (Grid.ofPrecision precision).stepsOf x ∧
        (Grid.ofPrecision precision).stepsOf x ≤ (Grid.ofPrecision precision).stepsOf max) ∧
      value.at? path = some v ∧
      (projectNode normalLeaf (followProject normalLeaf scope budget) node value).at? path =
        some (.fixed ((Grid.ofPrecision precision).valueOf
          ((Grid.ofPrecision precision).stepsOf x))) := by
  obtain ⟨rest, bits, hbits⟩ := h.writable hwrite
  obtain ⟨x, hx, hfinite, hsteps, -⟩ := writeNode_fixed_eq_ok_iff.1 hbits
  have hnull : v ≠ .null := by
    rintro rfl
    cases hx
  have htext : ∀ s, v ≠ .string s := by
    rintro s rfl
    cases hx
  refine ⟨x, hx, hfinite, hsteps, h.at?_eq hnull, ?_⟩
  rw [h.at?_projectNode hscope hvalid (fun _ => rfl) htext, normalLeaf, hx]

end Packing

/-- Writing data comes to the node `m` with the value `v`: whatever stands before it has been
written.  This is said of a value and not of its bits, so that it covers values that are refused. -/
def ReachesData (fields : List Node) (options : CodecOptions) (data : Value) (m : Node)
    (v : Value) : Prop :=
  Packing.Reaches fields options.pointerDepth options.pointerDepth (.object "<root>" fields) data
    m v

/-- Packing fails with what a node that is reached fails with. -/
theorem ReachesData.error {fields : List Node} {options : CodecOptions} {data : Value} {m : Node}
    {v : Value} (h : ReachesData fields options data m v) {e : Error}
    (he : ∀ follow, Packing.writeNode follow m v = .error e) :
    packData fields data options = .error e := by
  have hwrite : Packing.writeData fields data options.pointerDepth = .error e := by
    have hroot := Packing.Reaches.error h he
    rw [Packing.writeNode] at hroot
    exact hroot
  rw [packData, hwrite, error_bind]

/-- **Numbers beyond the bounds of a fixed-point field** are refused, unless they count as a bound.
Let the schema be valid.  If packing reaches a fixed-point field with a number below its lower or
above its upper bound, and the number does not count as this bound, packing fails with the field out
of bounds.  And if data are packed, every number at a fixed-point field is within the bounds, or it
is beyond a bound and counts as it; unpacking returns the number at its steps.  Bounds are compared
by steps, and steps are rounded and limited to 64 bits: that is what counting as a bound comes from.
-/
theorem outOfBounds_or_countsAs {name : String} {fields : List Node} {data : Value}
    {options : CodecOptions} (hvalid : Schema.validate ⟨name, fields⟩ = .ok ()) :
    (∀ own min max precision value x,
      ReachesData fields options data (.fixed own min max precision) value →
      value.asFixed? = some x →
      (x < min ∧ ¬Grid.CountsAs precision x min ∨ max < x ∧ ¬Grid.CountsAs precision x max) →
        packData fields data options = .error (.outOfBounds own (.fixed x min max))) ∧
    ∀ bytes, packData fields data options = .ok bytes →
      ∃ back, unpackData fields bytes options = .ok back ∧
        ∀ path own min max precision value,
          VisitsData fields options data path (.fixed own min max precision) value →
          data.at? path = some value ∧ ∃ x, value.asFixed? = some x ∧
            ((min ≤ x ∧ x ≤ max) ∨ (x < min ∧ Grid.CountsAs precision x min) ∨
              (max < x ∧ Grid.CountsAs precision x max)) ∧
            back.at? path = some (.fixed ((Grid.ofPrecision precision).valueOf
              ((Grid.ofPrecision precision).stepsOf x))) := by
  obtain ⟨hnames, hfields⟩ := Schema.validate_eq_ok_iff.1 hvalid
  have hroot : (Node.object "<root>" fields).Valid := Node.valid_object_iff.2 ⟨hnames, hfields⟩
  constructor
  · intro own min max precision value x hreach hx hout
    obtain ⟨path, hvisit⟩ := hreach.visits
    have hfield := hvisit.valid hfields hroot
    exact hreach.error fun follow => Packing.writeNode_fixed_of_outside hfield hx hout follow
  · intro bytes hpack
    obtain ⟨bits, hbits, rfl⟩ := packData_eq_ok_iff.1 hpack
    obtain ⟨entries, rfl, hentries⟩ := Packing.writeData_eq_ok_iff.1 hbits
    refine ⟨_, Packing.unpackData_toBytes hnames hfields hbits,
      fun path own min max precision value hvisit => ?_⟩
    have hwrite : Packing.Writable (Packing.followWrite fields options.pointerDepth
        options.pointerDepth) (.object "<root>" fields) (.object entries) :=
      ⟨bits, Packing.writeNode_object_eq_ok_iff.2 ⟨entries, rfl, hentries⟩⟩
    obtain ⟨x, hx, hfinite, ⟨hlow, hhigh⟩, hat, hback⟩ := hvisit.fixed hfields hroot hwrite
    exact ⟨hat, x, hx,
      Packing.between_or_countsAs (hvisit.valid hfields hroot) hfinite hlow hhigh, hback⟩

/-- Levels that may be missing, each of them an optional link to the field of the level. -/
def levelFields : List Node :=
  [.array "levels" 0 3 (.optional "next" (.pointer "link" "level")), .fixed "level" 0.0 10.0 0.1]

/-- A second level, with another one at the end. -/
def secondLevel (x : Float) : Value :=
  .object [("levels", .array [.null, .fixed x]), ("level", .int 5)]

/-- A level of 10.06 is refused, and one of 10.04 counts as the upper bound. -/
theorem outOfBounds_or_countsAs_secondLevel :
    Schema.validate ⟨"gauge", levelFields⟩ = .ok () ∧
      ReachesData levelFields {} (secondLevel 10.06) (.fixed "level" 0.0 10.0 0.1) (.fixed 10.06) ∧
      ((10.0 : Float) < 10.06 ∧ ¬Grid.CountsAs 0.1 10.06 10.0) ∧
      packData levelFields (secondLevel 10.06) {} =
        .error (.outOfBounds "level" (.fixed 10.06 0.0 10.0)) ∧
      packData levelFields (secondLevel 10.04) {} = .ok [156, 140, 128] ∧
      ∃ back, unpackData levelFields [156, 140, 128] {} = .ok back ∧
        back.at? [.entry "levels", .item 1] = some (.fixed ((Grid.ofPrecision 0.1).valueOf
          ((Grid.ofPrecision 0.1).stepsOf 10.04))) := by
  have hvalid : Schema.validate ⟨"gauge", levelFields⟩ = .ok () :=
    eq_ok_of_toOption (by decide +kernel)
  have hbefore : Packing.Writable (Packing.followWrite levelFields 5 5)
      (.optional "next" (.pointer "link" "level")) .null := ⟨[false], rfl⟩
  have hreach : ReachesData levelFields {} (secondLevel 10.06) (.fixed "level" 0.0 10.0 0.1)
      (.fixed 10.06) :=
    .field [] nofun (.item [.null] (by decide)
      (List.forall_mem_singleton.2 hbefore) (.optional nofun (.pointer rfl .here)))
  have hout : (10.0 : Float) < 10.06 ∧ ¬Grid.CountsAs 0.1 10.06 10.0 :=
    ⟨by decide +kernel, fun h => absurd h.2 (by decide +kernel)⟩
  have hpack : packData levelFields (secondLevel 10.04) {} = .ok [156, 140, 128] :=
    eq_ok_of_toOption (by decide +kernel)
  have hvisit : VisitsData levelFields {} (secondLevel 10.04) [.entry "levels", .item 1]
      (.fixed "level" 0.0 10.0 0.1) (.fixed 10.04) :=
    .field List.mem_cons_self (.item rfl (.optional nofun (.pointer rfl .here)))
  obtain ⟨back, hunpack, hback⟩ := (outOfBounds_or_countsAs hvalid).2 _ hpack
  obtain ⟨-, x, hx, -, hlevel⟩ := hback _ _ _ _ _ _ hvisit
  cases hx
  exact ⟨hvalid, hreach, hout,
    (outOfBounds_or_countsAs hvalid).1 _ _ _ _ _ _ hreach rfl (.inr hout), hpack, back, hunpack,
    hlevel⟩

/-- A level up to 10, in tenths, and a flow up to `1e19`, in whole units. -/
def gaugeFields : List Node :=
  [.fixed "level" 0.0 10.0 0.1, .fixed "flow" 0.0 1e19 1.0]

/-- A level less than half a tenth beyond its bound, and a flow far beyond its bound. -/
def beyondBounds : Value :=
  .object [("level", .fixed 10.04), ("flow", .fixed 1e300)]

/-- **Numbers beyond their bounds are accepted**: the level has the hundred steps of its bound, and
the flow has the greatest 64-bit number of steps, as its bound has. -/
theorem exists_packData_beyond_bounds :
    Schema.validate ⟨"gauge", gaugeFields⟩ = .ok () ∧
      (ReachesData gaugeFields {} beyondBounds (.fixed "level" 0.0 10.0 0.1) (.fixed 10.04) ∧
        (10.0 : Float) < 10.04) ∧
      (ReachesData gaugeFields {} beyondBounds (.fixed "flow" 0.0 1e19 1.0) (.fixed 1e300) ∧
        (1e19 : Float) < 1e300) ∧
      packData gaugeFields beyondBounds {} =
        .ok [201, 255, 255, 255, 255, 255, 255, 255, 252] := by
  have hlevel : Packing.Writable (Packing.followWrite gaugeFields 5 5)
      (.fixed "level" 0.0 10.0 0.1) (.fixed 10.04) :=
    ⟨Bits.ofNat 7 100, eq_ok_of_toOption (by decide +kernel)⟩
  exact ⟨eq_ok_of_toOption (by decide +kernel),
    ⟨.field [] nofun .here, by decide +kernel⟩,
    ⟨.field [_] (List.forall_mem_singleton.2 hlevel) .here,
      by decide +kernel⟩,
    eq_ok_of_toOption (by decide +kernel)⟩

end FieldGrammar
