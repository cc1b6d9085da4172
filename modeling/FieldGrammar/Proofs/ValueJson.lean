import Mathlib
import FieldGrammar.Interchange.Value
import FieldGrammar.Proofs.ExactNumbers
import FieldGrammar.Proofs.NodeJson
import FieldGrammar.Proofs.SchemaFiles
import FieldGrammar.Proofs.Values

/-!
# Data values are read back from JSON text

JSON has numbers, and data values have integers and fixed-point numbers, so the text of a number
has to say which of the two it writes.  An integer is written as its decimal digits, which are
read as an integer whatever they are.  A fixed-point number always keeps a point or an exponent,
also if it is whole, and a numeral with either of them is never read as an integer.

Reading decimal digits is not exact for every number, so that they are read as the number that
they were written for is an assumption on the numbers in the value (`Json.ReadsAs`).  It does not
say in which form the number is read; that is what this module proves.

## Main definitions

* `Json.ReadsAs` — the text of a number is read as the number, in whichever form

## Main statements

* `Numeral.isDigit_or_sign_of_read?_int` — what is read as an integer has digits and a sign only
* `NumberStyle.exists_mark_mem_chars` — fixed-point numbers are written with a point or an exponent
* `Value.ofJson?_toJson` — a value is read from its JSON value
* `Value.ofJsonText_toJsonText` — the round trip of values
-/

namespace FieldGrammar

/-! ### Integers and other numbers -/

namespace Numeral

/-- Without an exponent nothing is left of the text, because what follows the digits of a numeral
has to be an exponent. -/
theorem exponent?_eq_none {chars : List Char} (h : exponent? chars = some none) : chars = [] := by
  cases chars with
  | nil => rfl
  | cons mark rest =>
      rw [exponent?.eq_def] at h
      dsimp only at h
      split at h
      · split at h
        · cases h
        · cases h
        · cases h
      · cases h

/-- A numeral without fraction and exponent ends with its whole digits. -/
theorem tail?_eq_none {chars : List Char} (h : tail? chars = some (none, none)) : chars = [] := by
  rw [tail?.eq_def] at h
  split at h
  · split at h
    · cases h
    · obtain ⟨e, -, heq⟩ := Option.map_eq_some_iff.1 h
      cases heq
  · obtain ⟨e, he, heq⟩ := Option.map_eq_some_iff.1 h
    cases heq
    exact exponent?_eq_none he

theorem isDigit_of_takeDigits {chars : List Char} {digits : List Nat}
    (h : takeDigits chars = (digits, [])) : ∀ c ∈ chars, c.isDigit = true :=
  List.dropWhile_eq_nil_iff.1 (Prod.mk.inj h).2

/-- Only a numeral without fraction and exponent has an integer for its value.  An integer beyond 64
bits has none either, and is read as a number with a point. -/
theorem Parts.eq_none_of_value_int {parts : Parts} {n : Int} (h : parts.value = .int n) :
    parts.fraction = none ∧ parts.exponent = none := by
  obtain ⟨negative, whole, fraction, exponent⟩ := parts
  rw [value] at h
  dsimp only at h ⊢
  cases fraction with
  | some fraction =>
      dsimp only at h
      split at h <;> cases h
  | none =>
      cases exponent with
      | some e =>
          dsimp only at h
          split at h <;> cases h
      | none => exact ⟨rfl, rfl⟩

/-- **What is read as an integer has digits and a sign only.**  So a text with a point or an
exponent is never read as one. -/
theorem isDigit_or_sign_of_read?_int {chars : List Char} {n : Int}
    (h : read? chars = some (.int n)) : ∀ c ∈ chars, c.isDigit = true ∨ c = '-' := by
  obtain ⟨parts, hparts, hvalue⟩ := Option.map_eq_some_iff.1 h
  obtain ⟨hfraction, hexponent⟩ := Parts.eq_none_of_value_int hvalue
  rw [parts?.eq_def] at hparts
  dsimp only at hparts
  split at hparts
  · cases hparts
  · cases hparts
  · next whole rest _ _ hdigits =>
    obtain ⟨⟨fraction, e⟩, htail, rfl⟩ := Option.map_eq_some_iff.1 hparts
    obtain rfl : fraction = none := hfraction
    obtain rfl : e = none := hexponent
    rw [tail?_eq_none htail] at hdigits
    have hunsigned := isDigit_of_takeDigits hdigits
    -- The digits are what is left of the text behind a sign.
    split at hunsigned
    · exact List.forall_mem_cons.2 ⟨.inr rfl, fun c hc => .inl (hunsigned c hc)⟩
    · exact fun c hc => .inl (hunsigned c hc)

end Numeral

namespace NumberStyle

variable {style : NumberStyle}

/-- Written out by places, a number has a point in a style that keeps one, also behind its last
whole digit. -/
theorem point_mem_layPositional (h : style.keepsPoint = true) (digits : List Char)
    (exponent : Int) : '.' ∈ style.layPositional digits exponent := by
  unfold layPositional
  dsimp only
  rw [if_pos h]
  split
  · simp
  · split <;> simp

/-- Written with a power of ten, a number has the mark of an exponent in every style. -/
theorem mark_mem_layExponent (digits : List Char) (lead : Int) :
    'e' ∈ style.layExponent digits lead := by
  unfold layExponent
  simp

/-- **A finite number is written with a point or an exponent** in a style that keeps the point of
whole numbers. -/
theorem exists_mark_mem_chars (h : style.keepsPoint = true) {x : Float}
    (hx : x.isFinite = true) : ∃ c ∈ style.chars x, c = '.' ∨ c = 'e' := by
  obtain ⟨q, d, hd, -⟩ := Binary64.isFinite_iff.1 hx
  have hmagnitude : ∃ c ∈ style.magnitude d, c = '.' ∨ c = 'e' := by
    unfold magnitude
    dsimp only
    split
    · exact ⟨'.', point_mem_layPositional h _ _, .inl rfl⟩
    · exact ⟨'e', mark_mem_layExponent _ _, .inr rfl⟩
  obtain ⟨c, hc, hmark⟩ := hmagnitude
  refine ⟨c, ?_, hmark⟩
  rw [chars, hd]
  dsimp only
  split
  · exact List.mem_cons_of_mem _ hc
  · exact hc

end NumberStyle

namespace Json

/-- The text of the number is read as the number, in whichever form.  An integer in its place would
be another value, and that it is not one is shown below and not assumed. -/
def ReadsAs (x : Float) : Prop :=
  ∃ json, Numeral.read? (NumberStyle.json.chars x) = some json ∧ json.asFloat? = some x

/-- A finite number whose text is read as the number is not read as an integer. -/
theorem ReadsAs.readsBack {x : Float} (h : ReadsAs x) (hfinite : x.isFinite = true) :
    ReadsBack x := by
  obtain ⟨json, hread, hvalue⟩ := h
  cases json with
  | real y =>
      cases hvalue
      exact hread
  | int n =>
      have hkeeps : NumberStyle.json.keepsPoint = true := rfl
      obtain ⟨c, hc, hmark⟩ := NumberStyle.exists_mark_mem_chars hkeeps hfinite
      rcases Numeral.isDigit_or_sign_of_read?_int hread c hc with hdigit | rfl
      · rcases hmark with rfl | rfl <;> cases hdigit
      · rcases hmark with hmark | hmark <;> cases hmark
  | null | bool | string | array | object | unreadable => cases hvalue

end Json

namespace Value

/-! ### The JSON value of a value -/

/-- Items are converted one by one.  The recursion over them is part of that over values, so that
this and the next lemma are needed once to have `List.map` in its place. -/
theorem toJsonItems_eq (items : List Value) : toJsonItems items = items.map toJson := by
  induction items with
  | nil => rfl
  | cons item rest ih => rw [toJsonItems, ih, List.map_cons]

theorem toJsonMembers_eq (entries : Entries Value) :
    toJsonMembers entries = entries.map fun entry => (entry.1, entry.2.toJson) := by
  induction entries with
  | nil => rfl
  | cons entry rest ih => rw [toJsonMembers, ih, List.map_cons]

/-- A value and its JSON value are equally nested, so that the limit on the one is the limit on the
other. -/
theorem nesting_toJson (value : Value) : value.toJson.nesting = value.nesting := by
  induction value using Value.induction with
  | leaf value harray hobject =>
      cases value with
      | array items => exact absurd rfl (harray items)
      | object entries => exact absurd rfl (hobject entries)
      | null | bool | int | fixed | string => rfl
  | array items ih =>
      rw [toJson, Json.nesting, nesting]
      congr 1
      induction items with
      | nil => rfl
      | cons item rest ihrest =>
          obtain ⟨hitem, hrest⟩ := List.forall_mem_cons.1 ih
          rw [toJsonItems, Json.itemsNesting, itemsNesting, hitem, ihrest hrest]
  | object entries ih =>
      rw [toJson, Json.nesting, nesting]
      congr 1
      induction entries with
      | nil => rfl
      | cons entry rest ihrest =>
          obtain ⟨hentry, hrest⟩ := List.forall_mem_cons.1 ih
          rw [toJsonMembers, Json.membersNesting, entriesNesting, hentry, ihrest hrest]

/-- The JSON value of a value is read back from its text if its numbers are. -/
theorem legible_toJson {value : Value} (h : ∀ x, .fixed x ∈ value.parts → Json.ReadsBack x) :
    value.toJson.Legible := by
  induction value using Value.induction with
  | leaf value harray hobject =>
      cases value with
      | null => exact .null
      | bool b => exact .bool b
      | int n => exact Json.legible_int64 n
      | fixed x => exact .real (h x List.mem_cons_self)
      | string s => exact .string s
      | array items => exact absurd rfl (harray items)
      | object entries => exact absurd rfl (hobject entries)
  | array items ih =>
      rw [toJson, toJsonItems_eq]
      refine .array (List.forall_mem_map.2 fun item hitem => ih item hitem fun x hx => h x ?_)
      exact mem_parts_array.2 (.inr ⟨item, hitem, hx⟩)
  | object entries ih =>
      rw [toJson, toJsonMembers_eq]
      refine .object (List.forall_mem_map.2 fun entry hentry =>
        ih entry hentry fun x hx => h x ?_)
      exact mem_parts_object.2 (.inr ⟨entry, hentry, hx⟩)

/-- Items are read from their JSON values if each of them is. -/
theorem ofJsonItems?_toJsonItems {items : List Value}
    (h : ∀ item ∈ items, ofJson? item.toJson = some item) :
    ofJsonItems? (toJsonItems items) = some items := by
  induction items with
  | nil => rfl
  | cons item rest ih =>
      obtain ⟨hitem, hrest⟩ := List.forall_mem_cons.1 h
      rw [toJsonItems, ofJsonItems?, hitem, ih hrest]
      rfl

/-- Entries are read with their names and in their order if each of their values is. -/
theorem ofJsonMembers?_toJsonMembers {entries : Entries Value}
    (h : ∀ entry ∈ entries, ofJson? entry.2.toJson = some entry.2) :
    ofJsonMembers? (toJsonMembers entries) = some entries := by
  induction entries with
  | nil => rfl
  | cons entry rest ih =>
      obtain ⟨hentry, hrest⟩ := List.forall_mem_cons.1 h
      rw [toJsonMembers, ofJsonMembers?, hentry, ih hrest]
      rfl

/-- **A value is read from its JSON value**, with the entries of every object in their order.
Objects have distinct names, so that collecting the members of one leaves them as they are. -/
theorem ofJson?_toJson {value : Value}
    (hkeys : ∀ entries, .object entries ∈ value.parts → (Entries.keys entries).Nodup) :
    ofJson? value.toJson = some value := by
  induction value using Value.induction with
  | leaf value harray hobject =>
      cases value with
      | int n =>
          rw [toJson, ofJson?, Json.asInt64?_toInt]
      | array items => exact absurd rfl (harray items)
      | object entries => exact absurd rfl (hobject entries)
      | null | bool | fixed | string => rfl
  | array items ih =>
      have hitems : ofJsonItems? (toJsonItems items) = some items := by
        refine ofJsonItems?_toJsonItems fun item hitem => ih item hitem fun entries hmem => ?_
        exact hkeys entries (mem_parts_array.2 (.inr ⟨item, hitem, hmem⟩))
      rw [toJson, ofJson?, hitems]
      rfl
  | object entries ih =>
      have hmembers : ofJsonMembers? (toJsonMembers entries) = some entries := by
        refine ofJsonMembers?_toJsonMembers fun entry hentry => ih entry hentry fun inner hmem => ?_
        exact hkeys inner (mem_parts_object.2 (.inr ⟨entry, hentry, hmem⟩))
      have hself : (Entries.keys entries).Nodup := hkeys entries (mem_parts_object.2 (.inl rfl))
      rw [toJson, ofJson?, hmembers, Option.map_some, Entries.ofList_of_nodup hself]

/-- **The round trip of values.**  A value is read back from its compact text, each number with its
kind, each string and each name, and every object with its entries in their order.  Objects have
distinct names, the fixed-point numbers are finite, the text of each of them is read as the number,
and no more than `Json.maxNesting` arrays and objects stand inside one another.  Numbers that are
not finite are written as null, which is why they are excluded. -/
theorem ofJsonText_toJsonText {value : Value}
    (hkeys : ∀ entries, .object entries ∈ value.parts → (Entries.keys entries).Nodup)
    (hfinite : ∀ x, .fixed x ∈ value.parts → x.isFinite = true)
    (hnumbers : ∀ x, .fixed x ∈ value.parts → Json.ReadsAs x)
    (hnesting : value.nesting ≤ Json.maxNesting) :
    ofJsonText value.toJsonText = .ok value := by
  have hlegible : value.toJson.Legible :=
    legible_toJson fun x hx => (hnumbers x hx).readsBack (hfinite x hx)
  have hreadable : value.toJson.readableWithin Json.maxNesting = true :=
    hlegible.readableWithin_iff.2 (nesting_toJson value ▸ hnesting)
  rw [ofJsonText, toJsonText, Json.ofText?_toText hlegible]
  dsimp only
  rw [hreadable, ofJson?_toJson hkeys]
  rfl

/-- A parcel with a whole weight and an integer of the same value, a name with a quotation mark, a
line break and characters beyond ASCII, and names in another order than that of the alphabet. -/
def parcelValue : Value :=
  .object [("weight", .fixed 30.0), ("floor", .int 30), ("colis \x22é\x22\n🚀",
    .array [.null, .bool true, .fixed 0.5, .object [("b", .string "\\"), ("a", .array [])]])]

/-- The parcel is read back from its text, at four levels of nesting. -/
theorem ofJsonText_toJsonText_parcel :
    parcelValue.nesting = 4 ∧ ofJsonText parcelValue.toJsonText = .ok parcelValue := by
  have hparts : parcelValue.parts = [parcelValue, .fixed 30.0, .int 30,
      .array [.null, .bool true, .fixed 0.5, .object [("b", .string "\\"), ("a", .array [])]],
      .null, .bool true, .fixed 0.5, .object [("b", .string "\\"), ("a", .array [])],
      .string "\\", .array []] := rfl
  have hfixed : ∀ x, .fixed x ∈ parcelValue.parts → x = 30.0 ∨ x = 0.5 := by
    intro x hmem
    rw [hparts] at hmem
    simpa [parcelValue] using hmem
  have hnesting : parcelValue.nesting = 4 := rfl
  refine ⟨hnesting, ofJsonText_toJsonText ?_ ?_ ?_ (hnesting ▸ by decide)⟩
  · intro entries hmem
    have hcases : .object entries = parcelValue ∨
        entries = [("b", .string "\\"), ("a", .array [])] := by
      simpa [hparts] using hmem
    rcases hcases with heq | rfl
    · obtain rfl := Value.object.inj heq
      decide
    · decide
  · intro x hmem
    rcases hfixed x hmem with rfl | rfl <;> decide
  · intro x hmem
    rcases hfixed x hmem with rfl | rfl
    · exact ⟨.real 30.0, rfl, rfl⟩
    · exact ⟨.real 0.5, rfl, rfl⟩

end Value

end FieldGrammar
