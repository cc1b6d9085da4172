import Mathlib
import FieldGrammar.Proofs.DataRoundTrip
import FieldGrammar.Proofs.MetaSchemas
import FieldGrammar.Proofs.RoundedOperations

/-!
# Integers at their positions

An integer field accepts integers and whole floating-point numbers, and reading returns an
integer.  This module says which one, position by position: writing data visits a node with a value
at the end of a path (`Packing.Visits`), and reading returns data in which the same path leads to
the integer that was written there.

That integer is the number supplied, as long as the number fits 64 bits.  A whole floating-point
number beyond the 64-bit range counts as the end of the range, which a field accepts if its bound
is that end; it comes back as this bound, and not as the number supplied.

## Main definitions

* `Value.at?` — what a path leads to
* `Packing.Visits`, `VisitsData` — the nodes and values that writing meets, with their paths
* `Value.HasNumber` — the exact number that a numeric value is

## Main statements

* `Binary64.hasValue_of_wholeValue?` — a whole number has an integer for its exact value
* `Packing.Visits.at?_projectNode` — projection changes the values at leaves, path by path
* `integers_of_packData` — the integer that is read at each position
* `exists_integer_other_than_supplied` — a number beyond the 64-bit range is replaced
-/

namespace FieldGrammar

/-! ### Whole numbers -/

namespace Binary64

/-- The exact value of a whole number is the integer that it is. -/
theorem hasValue_of_wholeValue? {x : Float} {z : ℤ} (h : wholeValue? x = some z) :
    HasValue x z := by
  rw [wholeValue?, Option.bind_eq_bind, Option.bind_eq_some_iff] at h
  obtain ⟨d, hd, h⟩ := h
  have hwhole : d.isWhole = true ∧ d.nearest = z := by
    cases hwhole : d.isWhole <;> simp_all
  obtain ⟨hwhole, rfl⟩ := hwhole
  have hdvd : d.denominator ∣ d.numerator := by
    rw [Dyadic.isWhole, beq_iff_eq] at hwhole
    exact Nat.dvd_of_mod_eq_zero hwhole
  have hden : (d.denominator : ℚ) ≠ 0 := by
    rw [Dyadic.denominator, Nat.shiftLeft_eq, one_mul]
    exact_mod_cast (Nat.two_pow_pos _).ne'
  have hvalue : d.value = (d.signed (d.numerator / d.denominator) : ℤ) := by
    have hmagnitude := magnitude_eq d
    rw [← Nat.cast_div hdvd hden] at hmagnitude
    rw [Dyadic.value, Dyadic.signed, Dyadic.signed]
    split
    · rw [Int.cast_neg, Int.cast_neg, Int.cast_natCast, Int.cast_natCast, neg_mul, hmagnitude]
    · rw [Int.cast_natCast, Int.cast_natCast, hmagnitude]
  have hnearest : nearestInt? x = some (roundAway d.value) := nearestInt?_eq_roundAway ⟨d, hd, rfl⟩
  rw [nearestInt?, hd, Option.map_some, hvalue, roundAway_intCast, Option.some_inj] at hnearest
  exact ⟨d, hd, by rw [hvalue, hnearest]⟩

end Binary64

/-- An integer limited to 64 bits is the integer itself, or the end of the range that it is
beyond. -/
theorem clampInt64_cases (z : ℤ) :
    (clampInt64 z).toInt = z ∨
      (Int64.maxValue.toInt < z ∧ clampInt64 z = Int64.maxValue) ∨
      (z < Int64.minValue.toInt ∧ clampInt64 z = Int64.minValue) := by
  rw [clampInt64]
  split
  · next hlow => exact .inr (.inr ⟨hlow, rfl⟩)
  · next hlow =>
    split
    · next hhigh => exact .inr (.inl ⟨hhigh, rfl⟩)
    · next hhigh =>
      have hlt : z < 2 ^ 63 := Int.lt_add_one_of_le (not_lt.1 hhigh)
      exact .inl (Int64.toInt_ofInt_of_le (not_lt.1 hlow) hlt)

namespace Value

/-- The exact number that a numeric value is.  Values of other kinds have none, and neither do
infinities. -/
def HasNumber : Value → ℚ → Prop
  | int n, q => n.toInt = q
  | fixed x, q => Binary64.HasValue x q
  | _, _ => False

/-- A value that counts as an integer is a whole number, limited to 64 bits. -/
theorem exists_of_asInt? {value : Value} {n : Int64} (h : value.asInt? = some n) :
    ∃ z : ℤ, value.HasNumber z ∧ n = clampInt64 z := by
  cases value with
  | int i =>
      cases h
      exact ⟨n.toInt, rfl, (Binary64.clampInt64_toInt n).symm⟩
  | fixed x =>
      obtain ⟨z, hz, rfl⟩ := Option.map_eq_some_iff.1 h
      exact ⟨z, Binary64.hasValue_of_wholeValue? hz, rfl⟩
  | null | bool | string | array | object => cases h

/-! ### Paths -/

/-- A step from an array or an object to what it holds.  Paths are what positions in data are told
apart by. -/
inductive Step where
  | item (index : Nat)
  | entry (name : String)
  deriving DecidableEq, Repr

/-- What a path leads to. -/
def at? : (path : List Step) → Value → Option Value
  | [], value => some value
  | .item index :: path, array items => items[index]?.bind (at? path)
  | .entry name :: path, object entries => (Entries.get? entries name).bind (at? path)
  | _ :: _, _ => none

end Value

namespace Packing

/-- Writing the value against the node, with a number of pointers left to follow, visits the node
`m` with the value `v` at the end of the path. -/
inductive Visits (scope : List Node) :
    (budget : Nat) → Node → Value → List Value.Step → (m : Node) → (v : Value) → Prop
  | here {budget : Nat} {m : Node} {v : Value} : Visits scope budget m v [] m v
  | optional {budget : Nat} {name : String} {inner m : Node} {value v : Value}
      {path : List Value.Step} (hvalue : value ≠ .null)
      (h : Visits scope budget inner value path m v) :
      Visits scope budget (.optional name inner) value path m v
  | item {budget : Nat} {name : String} {minLength maxLength : UInt32} {item m : Node}
      {items : List Value} {index : Nat} {element v : Value} {path : List Value.Step}
      (hitem : items[index]? = some element) (h : Visits scope budget item element path m v) :
      Visits scope budget (.array name minLength maxLength item) (.array items)
        (.item index :: path) m v
  | field {budget : Nat} {name : String} {fields : List Node} {field m : Node}
      {entries : Entries Value} {v : Value} {path : List Value.Step} (hfield : field ∈ fields)
      (h : Visits scope budget field (Entries.getOrNull entries field.name) path m v) :
      Visits scope budget (.object name fields) (.object entries) (.entry field.name :: path) m v
  | variant {budget : Nat} {name : String} {discriminator : Enumeration}
      {variants : Entries (List Node)} {option : String} {field m : Node}
      {entries : Entries Value} {v : Value} {path : List Value.Step}
      (hoption : Entries.getOrNull entries discriminator.name = .string option)
      (hfield : field ∈ (Entries.get? variants option).getD [])
      (h : Visits scope budget field (Entries.getOrNull entries field.name) path m v) :
      Visits scope budget (.union name discriminator variants) (.object entries)
        (.entry field.name :: path) m v
  | pointer {budget : Nat} {name target : String} {node m : Node} {value v : Value}
      {path : List Value.Step} (htarget : resolveTarget scope target = some node)
      (h : Visits scope budget node value path m v) :
      Visits scope (budget + 1) (.pointer name target) value path m v

namespace Visits

variable {scope : List Node} {budget : Nat} {node m : Node} {value v : Value}
  {path : List Value.Step}

/-- No path leads into a value that is no container. -/
theorem eq_of_leaf (h : Visits scope budget node value path m v)
    (harray : ∀ items, value ≠ .array items) (hobject : ∀ entries, value ≠ .object entries) :
    path = [] ∧ v = value := by
  induction h with
  | here => exact ⟨rfl, rfl⟩
  | optional _ _ ih => exact ih harray hobject
  | item => exact absurd rfl (harray _)
  | field => exact absurd rfl (hobject _)
  | variant => exact absurd rfl (hobject _)
  | pointer _ _ ih => exact ih harray hobject

/-- What is visited is what the path leads to, unless it is absent and counts as null.  So a visited
position can be looked up in the data without its schema. -/
theorem at?_eq (h : Visits scope budget node value path m v) (hv : v ≠ .null) :
    value.at? path = some v := by
  have hentry : ∀ {entries : Entries Value} {field : Node} {path : List Value.Step} {budget},
      Visits scope budget field (Entries.getOrNull entries field.name) path m v →
      (Entries.getOrNull entries field.name).at? path = some v →
      (Value.object entries).at? (.entry field.name :: path) = some v := by
    intro entries field path budget h hfound
    rw [Value.at?]
    cases hget : Entries.get? entries field.name with
    | some value =>
        rw [Entries.getOrNull, hget] at hfound
        exact hfound
    | none =>
        rw [Entries.getOrNull, hget] at h
        exact absurd (h.eq_of_leaf (by simp) (by simp)).2 hv
  induction h with
  | here => rfl
  | optional _ _ ih => exact ih hv hentry
  | item hitem _ ih =>
      rw [Value.at?, hitem]
      exact ih hv hentry
  | field _ h ih => exact hentry h (ih hv hentry)
  | variant _ _ h ih => exact hentry h (ih hv hentry)
  | pointer _ _ ih => exact ih hv hentry

/-- What is visited can be written if the whole can.  The parts of a value that was written have
been written before it. -/
theorem writable {limit : Nat} (h : Visits scope budget node value path m v)
    (hwrite : Writable (followWrite scope limit budget) node value) :
    ∃ rest, Writable (followWrite scope limit rest) m v := by
  induction h with
  | here => exact ⟨_, hwrite⟩
  | optional hvalue _ ih =>
      obtain ⟨bits, hbits⟩ := hwrite
      rcases writeNode_optional_eq_ok_iff.1 hbits with ⟨hnull, -⟩ | ⟨-, rest, hrest, -⟩
      · exact absurd hnull hvalue
      · exact ih ⟨rest, hrest⟩
  | item hitem _ ih => exact ih ((writable_array_iff.1 hwrite).2 _ (List.mem_of_getElem? hitem))
  | field hfield _ ih => exact ih (writable_object_iff.1 hwrite _ hfield)
  | variant hoption hfield _ ih => exact ih ((writable_union_iff hoption).1 hwrite |>.2 _ hfield)
  | pointer htarget _ ih =>
      obtain ⟨bits, hbits⟩ := hwrite
      rw [writeNode_pointer, followWrite_succ htarget] at hbits
      exact ih ⟨bits, hbits⟩

/-- **Projection changes the values at leaves, path by path.**  A text is left out: at the name of
a discriminator the chosen option stands, whatever field of the variant has the same name. -/
theorem at?_projectNode {leaf : Node → Value → Value} (hscope : ∀ field ∈ scope, field.Valid)
    (h : Visits scope budget node value path m v) (hvalid : node.Valid)
    (hleaf : ∀ follow, projectNode leaf follow m v = leaf m v) (htext : ∀ s, v ≠ .string s) :
    (projectNode leaf (followProject leaf scope budget) node value).at? path =
      some (leaf m v) := by
  induction h with
  | here => exact congrArg some (hleaf _)
  | optional hvalue _ ih =>
      rw [projectNode, if_neg (mt Value.isNull_iff.1 hvalue)]
      exact ih (Node.valid_optional_iff.1 hvalid) hleaf htext
  | item hitem _ ih =>
      rw [projectNode, Value.asArray?]
      dsimp only
      rw [Value.at?, List.getElem?_map, hitem]
      exact ih (Node.valid_array_iff.1 hvalid).2 hleaf htext
  | field hfield _ ih =>
      obtain ⟨hnames, hfields⟩ := Node.valid_object_iff.1 hvalid
      rw [projectNode, Value.asObject?]
      dsimp only
      rw [Value.at?, get?_projectFields hnames _ hfield]
      exact ih (hfields _ hfield) hleaf htext
  | @variant budget name discriminator variants option field m entries v path hoption hfield h ih =>
      obtain ⟨-, -, hvariants⟩ := Node.valid_union_iff.1 hvalid
      -- A field with the discriminator's name would find the option, which is a text.
      have hne : discriminator.name ≠ field.name := by
        intro heq
        rw [← heq, hoption] at h
        exact htext option (h.eq_of_leaf (by simp) (by simp)).2
      obtain ⟨fields, hget, hfields⟩ : ∃ fields, Entries.get? variants option = some fields ∧
          field ∈ fields := by
        cases hget : Entries.get? variants option with
        | some fields => exact ⟨fields, rfl, by rwa [hget] at hfield⟩
        | none =>
            rw [hget] at hfield
            cases hfield
      obtain ⟨hnames, hall⟩ := hvariants _ (Entries.mem_of_get?_eq_some hget)
      rw [projectNode_union_of_string hoption, Value.at?, Entries.get?_cons_of_ne hne,
        Entries.get?_filter_ne hne.symm, hget, Option.getD_some,
        get?_projectFields hnames _ hfields]
      exact ih (hall _ hfields) hleaf htext
  | pointer htarget _ ih =>
      rw [projectNode, followProject, htarget]
      exact ih (valid_of_resolveTarget hscope htarget) hleaf htext

end Visits

/-- What is visited at an integer field counts as an integer between the bounds, and its place in
the normal form has this integer. -/
theorem Visits.integer {scope : List Node} {limit budget : Nat} {node : Node} {value v : Value}
    {path : List Value.Step} {name : String} {min max : Int64}
    (h : Visits scope budget node value path (.int name min max) v)
    (hscope : ∀ field ∈ scope, field.Valid) (hvalid : node.Valid)
    (hwrite : Writable (followWrite scope limit budget) node value) :
    ∃ n, v.asInt? = some n ∧ min ≤ n ∧ n ≤ max ∧ value.at? path = some v ∧
      (projectNode normalLeaf (followProject normalLeaf scope budget) node value).at? path =
        some (.int n) := by
  obtain ⟨rest, bits, hbits⟩ := h.writable hwrite
  obtain ⟨n, hint, ⟨hmin, hmax⟩, -⟩ := writeNode_int_eq_ok_iff.1 hbits
  have hnull : v ≠ .null := by
    rintro rfl
    cases hint
  have htext : ∀ s, v ≠ .string s := by
    rintro s rfl
    cases hint
  refine ⟨n, hint, hmin, hmax, h.at?_eq hnull, ?_⟩
  rw [h.at?_projectNode hscope hvalid (fun _ => rfl) htext, normalLeaf, hint]

end Packing

/-- Writing data visits the node `m` with the value `v` at the end of the path.  The data are an
object of the fields. -/
def VisitsData (fields : List Node) (options : CodecOptions) (data : Value)
    (path : List Value.Step) (m : Node) (v : Value) : Prop :=
  Packing.Visits fields options.pointerDepth (.object "<root>" fields) data path m v

/-- **Integers come back as the numbers supplied**, except beyond the 64-bit range.  Data that were
packed against a valid schema are unpacked, and where writing met an integer field, the path from
the root leads in the data to a value that is a whole number and in what was unpacked to an integer
between the bounds of the field.  This integer is that number.  Only if the number is beyond the
64-bit range, and the bound of the field on this side is the end of the range, it is the bound. -/
theorem integers_of_packData {name : String} {fields : List Node} {data : Value}
    {options : CodecOptions} {bytes : List UInt8}
    (hvalid : Schema.validate ⟨name, fields⟩ = .ok ())
    (hpack : packData fields data options = .ok bytes) :
    ∃ back, unpackData fields bytes options = .ok back ∧
      ∀ path own min max value, VisitsData fields options data path (.int own min max) value →
        data.at? path = some value ∧
        ∃ (z : ℤ) (n : Int64), value.HasNumber z ∧ back.at? path = some (.int n) ∧
          (min ≤ n ∧ n ≤ max) ∧ (∀ i, value = .int i → n = i) ∧
          (n.toInt = z ∨
            (Int64.maxValue.toInt < z ∧ max = Int64.maxValue ∧ n = max) ∨
            (z < Int64.minValue.toInt ∧ min = Int64.minValue ∧ n = min)) := by
  obtain ⟨hnames, hfields⟩ := Schema.validate_eq_ok_iff.1 hvalid
  obtain ⟨bits, hbits, rfl⟩ := packData_eq_ok_iff.1 hpack
  obtain ⟨entries, rfl, hentries⟩ := Packing.writeData_eq_ok_iff.1 hbits
  refine ⟨_, Packing.unpackData_toBytes hnames hfields hbits, fun path own min max value h => ?_⟩
  have hroot : (Node.object "<root>" fields).Valid := Node.valid_object_iff.2 ⟨hnames, hfields⟩
  have hwrite : Packing.Writable (Packing.followWrite fields options.pointerDepth
      options.pointerDepth) (.object "<root>" fields) (.object entries) :=
    ⟨bits, Packing.writeNode_object_eq_ok_iff.2 ⟨entries, rfl, hentries⟩⟩
  obtain ⟨n, hint, hmin, hmax, hat, hback⟩ := h.integer hfields hroot hwrite
  obtain ⟨z, hz, rfl⟩ := Value.exists_of_asInt? hint
  refine ⟨hat, z, _, hz, hback, ⟨hmin, hmax⟩, ?_, ?_⟩
  · rintro i rfl
    cases hint
    rfl
  · rcases clampInt64_cases z with heq | ⟨hbeyond, heq⟩ | ⟨hbeyond, heq⟩
    · exact .inl heq
    · rw [heq] at hmax ⊢
      have hend : max = Int64.maxValue := Int64.le_antisymm (Int64.le_maxValue max) hmax
      exact .inr (.inl ⟨hbeyond, hend, hend.symm⟩)
    · rw [heq] at hmin ⊢
      have hend : min = Int64.minValue := Int64.le_antisymm hmin (Int64.minValue_le min)
      exact .inr (.inr ⟨hbeyond, hend, hend.symm⟩)

/-- Readings that may be missing, each of them an optional link to the field of the offset. -/
def readingFields : List Node :=
  [.array "readings" 0 3 (.optional "reading" (.pointer "value" "offset")), .int "offset" (-5) 10]

/-- A second reading that is given as a floating-point number. -/
def secondReading : Value :=
  .object [("offset", .int (-5)), ("readings", .array [.null, .fixed 7.0])]

theorem integers_of_packData_secondReading :
    Schema.validate ⟨"sensor", readingFields⟩ = .ok () ∧
      packData readingFields secondReading {} = .ok [156, 0] ∧
      ∃ back, unpackData readingFields [156, 0] {} = .ok back ∧
        back.at? [.entry "readings", .item 1] = some (.int 7) := by
  have hvalid : Schema.validate ⟨"sensor", readingFields⟩ = .ok () := rfl
  have hpack : packData readingFields secondReading {} = .ok [156, 0] :=
    eq_ok_of_toOption (by decide)
  obtain ⟨back, hunpack, hback⟩ := integers_of_packData hvalid hpack
  refine ⟨hvalid, hpack, back, hunpack, ?_⟩
  have hvisit : VisitsData readingFields {} secondReading [.entry "readings", .item 1]
      (.int "offset" (-5) 10) (.fixed 7.0) :=
    .field List.mem_cons_self (.item rfl (.optional nofun (.pointer rfl .here)))
  obtain ⟨-, z, n, hz, hn, -, -, hcases⟩ := hback _ _ _ _ _ hvisit
  have hseven : (z : ℚ) = (7 : ℤ) :=
    Binary64.HasValue.unique hz (Binary64.hasValue_of_wholeValue? (by decide))
  obtain rfl : z = 7 := by exact_mod_cast hseven
  rcases hcases with heq | ⟨hbeyond, -⟩ | ⟨hbeyond, -⟩
  · obtain rfl : n = 7 := Int64.toInt_inj.1 heq
    exact hn
  · exact absurd hbeyond (by decide)
  · exact absurd hbeyond (by decide)

/-- A field whose upper bound is the end of the 64-bit range. -/
def wideFields : List Node :=
  [.int "n" 0 Int64.maxValue]

/-- A whole number far beyond the 64-bit range. -/
def beyondRange : Value :=
  .object [("n", .fixed 1e300)]

/-- **A number beyond the 64-bit range is accepted and replaced** by the end of the range.  The
number is whole, and the conversion to 64 bits saturates instead of failing. -/
theorem exists_integer_other_than_supplied :
    Schema.validate ⟨"wide", wideFields⟩ = .ok () ∧
      packData wideFields beyondRange {} = .ok [255, 255, 255, 255, 255, 255, 255, 254] ∧
      VisitsData wideFields {} beyondRange [.entry "n"] (.int "n" 0 Int64.maxValue)
        (.fixed 1e300) ∧
      ∃ back, unpackData wideFields [255, 255, 255, 255, 255, 255, 255, 254] {} = .ok back ∧
        back.at? [.entry "n"] = some (.int Int64.maxValue) ∧
        ¬(Value.fixed 1e300).HasNumber Int64.maxValue.toInt := by
  have hpack : packData wideFields beyondRange {} =
      .ok [255, 255, 255, 255, 255, 255, 255, 254] := eq_ok_of_toOption (by decide +kernel)
  have hvisit : VisitsData wideFields {} beyondRange [.entry "n"] (.int "n" 0 Int64.maxValue)
      (.fixed 1e300) := .field List.mem_cons_self .here
  obtain ⟨back, hunpack, hback⟩ := exists_eq_ok_of_toOption
    (show (unpackData wideFields [255, 255, 255, 255, 255, 255, 255, 254] {}).toOption.any
      (fun back => (back.at? [.entry "n"]).any (Value.same (.int Int64.maxValue))) = true by
        decide +kernel)
  obtain ⟨v, hat, hsame⟩ := (Option.any_eq_true _ _).1 hback
  refine ⟨rfl, hpack, hvisit, back, hunpack, ?_, fun hnumber => ?_⟩
  · cases v with
    | int n =>
        rw [Value.same, beq_iff_eq] at hsame
        rw [hat, hsame]
    | null | bool | fixed | string | array | object => simp [Value.same] at hsame
  · obtain ⟨z, hz⟩ : ∃ z, Binary64.wholeValue? 1e300 = some z ∧ z ≠ Int64.maxValue.toInt := by
      refine ⟨(Binary64.wholeValue? 1e300).getD 0, ?_, ?_⟩ <;> decide +kernel
    have heq := Binary64.HasValue.unique hnumber (Binary64.hasValue_of_wholeValue? hz.1)
    exact hz.2 (by exact_mod_cast heq.symm)

end FieldGrammar
