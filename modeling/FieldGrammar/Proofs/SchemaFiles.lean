import Mathlib
import FieldGrammar.Interchange.SchemaFile
import FieldGrammar.Proofs.LaidOutText
import FieldGrammar.Proofs.NodeJson

/-!
# Schema files are read back

A schema file is written as laid-out text and checked when it is read.  What was written comes back
unchanged, whether it is read as text or as octets, if the schema passes the check and two bounds of
the reader are met: the numbers in the text are read back, and the value nests within the bound.

How deeply a value nests is a number of its own (`Json.nesting`).  A value that can be read back
from its text at all has no unreadable part, so for such a value the reader's bound is a bound on
this number alone.

## Main definitions

* `Json.nesting` — the number of arrays and objects inside one another

## Main statements

* `Json.Legible.readableWithin_iff` — the bound on nesting
* `SchemaFile.ofJson?_toJson` — a file is read from its value
* `SchemaFile.ofText_toText_and_ofBytes_toBytes` — the round trip of schema files
-/

namespace FieldGrammar

namespace Json

/-! ### Nesting -/

mutual

/-- The number of arrays and objects inside one another: one for an array or object with no other in
it, and none for everything else. -/
def nesting : Json → Nat
  | .array items => itemsNesting items + 1
  | .object members => membersNesting members + 1
  | _ => 0

/-- The greatest nesting among the items of an array. -/
def itemsNesting : List Json → Nat
  | [] => 0
  | item :: rest => max (nesting item) (itemsNesting rest)

/-- The greatest nesting among the members of an object. -/
def membersNesting : List (String × Json) → Nat
  | [] => 0
  | (_, value) :: rest => max (nesting value) (membersNesting rest)

end

theorem itemsNesting_le_iff {items : List Json} {bound : Nat} :
    itemsNesting items ≤ bound ↔ ∀ item ∈ items, item.nesting ≤ bound := by
  induction items with
  | nil => simp [itemsNesting]
  | cons item rest ih => rw [itemsNesting, max_le_iff, ih, List.forall_mem_cons]

theorem membersNesting_le_iff {members : List (String × Json)} {bound : Nat} :
    membersNesting members ≤ bound ↔ ∀ entry ∈ members, entry.2.nesting ≤ bound := by
  induction members with
  | nil => simp [membersNesting]
  | cons entry rest ih => rw [membersNesting, max_le_iff, ih, List.forall_mem_cons]

/-- **A value that can be read back is read within a bound** exactly if it nests within it.  Nothing
else makes a legible value unreadable. -/
theorem Legible.readableWithin_iff {value : Json} (h : Legible value) {levels : Nat} :
    value.readableWithin levels = true ↔ value.nesting ≤ levels := by
  induction h generalizing levels with
  | null | bool | int | real | string => simp [readableWithin, nesting]
  | @array items _ ih =>
      rw [readableWithin_array_iff, nesting]
      constructor
      · rintro ⟨below, rfl, hitems⟩
        have hle := itemsNesting_le_iff.2 fun item hitem => (ih item hitem).1 (hitems item hitem)
        omega
      · intro hle
        obtain ⟨below, rfl⟩ := Nat.exists_eq_add_of_le' (Nat.le_of_add_left_le hle)
        have hitems := itemsNesting_le_iff.1 (Nat.le_of_add_le_add_right hle)
        exact ⟨below, rfl, fun item hitem => (ih item hitem).2 (hitems item hitem)⟩
  | @object members _ ih =>
      rw [readableWithin_object_iff, nesting]
      constructor
      · rintro ⟨below, rfl, hmembers⟩
        have hle := membersNesting_le_iff.2 fun entry hentry =>
          (ih entry hentry).1 (hmembers entry hentry)
        omega
      · intro hle
        obtain ⟨below, rfl⟩ := Nat.exists_eq_add_of_le' (Nat.le_of_add_left_le hle)
        have hmembers := membersNesting_le_iff.1 (Nat.le_of_add_le_add_right hle)
        exact ⟨below, rfl, fun entry hentry => (ih entry hentry).2 (hmembers entry hentry)⟩

end Json

namespace SchemaFile

variable {file : SchemaFile}

/-! ### The value of a file -/

/-- The value of a file is read back from its text. -/
theorem legible_toJson (h : ∀ field ∈ file.fields, field.Writable) : file.toJson.Legible := by
  refine .object (List.forall_mem_cons.2 ⟨.string file.name, List.forall_mem_cons.2 ⟨?_, ?_⟩⟩)
  · refine .array ?_
    rw [Node.toJsonList_eq]
    exact List.forall_mem_map.2 fun field hfield => Node.legible_toJson (h field hfield)
  · exact List.forall_mem_singleton.2 (.string file.version)

/-- **A file is read from its value** if its fields are valid and the value nests within the bound.
-/
theorem ofJson?_toJson (hvalid : ∀ field ∈ file.fields, field.Valid)
    (hnesting : file.toJson.readableWithin Json.maxNesting = true) :
    ofJson? file.toJson = some file := by
  obtain ⟨below, hbelow, hmembers⟩ := Json.readableWithin_object_iff.1 hnesting
  obtain rfl : Json.maxNesting - 1 = below := by rw [hbelow]; rfl
  have hfields := hmembers ("fields", .array (Node.toJsonList file.fields)) (by simp)
  have hschema : Schema.ofRecord? (Json.lookup [("name", .string file.name),
      ("fields", .array (Node.toJsonList file.fields)), ("version", .string file.version)]) =
        some ⟨file.name, file.fields⟩ := Schema.ofRecord?_eq_some rfl rfl hvalid hfields
  show (Schema.ofRecord? (Json.lookup _) >>= _) = some file
  rw [hschema]
  rfl

/-- A file that passes the check is accepted from its value. -/
theorem accept_toJson (hvalid : file.schema.validate = .ok ())
    (hresolve : file.schema.resolvePointers = .ok ())
    (hnesting : file.toJson.readableWithin Json.maxNesting = true) :
    accept (some file.toJson) = .ok file := by
  have hread := ofJson?_toJson (Schema.validate_eq_ok_iff.1 hvalid).2 hnesting
  have hcheck : file.check = .ok () := by
    unfold check
    rw [hvalid, ok_bind, hresolve]
  unfold accept
  dsimp only
  rw [hread]
  dsimp only
  rw [hcheck]
  rfl

/-! ### The text of a file -/

/-- **The round trip of schema files.**  A file whose schema is valid and whose pointers can be
resolved is read back from its text and from its octets, if the numbers in the text are read back
and no more than `Json.maxNesting` arrays and objects stand inside one another.  Both readers check
the schema before they return it, so a file that fails the check is never read back. -/
theorem ofText_toText_and_ofBytes_toBytes (hvalid : file.schema.validate = .ok ())
    (hresolve : file.schema.resolvePointers = .ok ())
    (hnesting : file.toJson.nesting ≤ Json.maxNesting)
    (hnumbers : ∀ m ∈ Node.walkList file.fields, m.NumbersReadBack) :
    ofText file.toText = .ok file ∧ ofBytes file.toBytes = .ok file := by
  have hlegible : file.toJson.Legible := by
    refine legible_toJson fun field hfield => ?_
    refine ⟨(Schema.validate_eq_ok_iff.1 hvalid).2 field hfield, fun m hm => ?_⟩
    exact hnumbers m (Node.mem_walkList.2 ⟨field, hfield, hm⟩)
  have haccept := accept_toJson hvalid hresolve (hlegible.readableWithin_iff.2 hnesting)
  constructor
  · rw [ofText, toText, Json.ofText?_toPrettyText hlegible, haccept]
  · rw [ofBytes, toBytes, Json.ofBytes?_pretty hlegible, haccept]

/-- A parcel whose name has a quotation mark, a line break and characters beyond ASCII, with a union
that stores its variants in another order than its options. -/
def parcelFile : SchemaFile where
  name := "colis \x22é\x22\n🚀"
  fields :=
    [.fixed "weight" 0.0 30.0 0.5,
      .union "to" ⟨"kind", ["door", "box"]⟩
        [("box", [.enumArray "codes" 0 3 ⟨"code", ["\\", "\t"]⟩]),
          ("door", [.int "floor" (-2) 40])],
      .array "parts" 0 4 (.optional "part" (.pointer "next" "to"))]
  version := "1.0 bêta"

theorem ofText_toText_and_ofBytes_toBytes_parcel :
    parcelFile.schema.validate = .ok () ∧ parcelFile.schema.resolvePointers = .ok () ∧
      parcelFile.toJson.nesting = 8 ∧
      ofText parcelFile.toText = .ok parcelFile ∧ ofBytes parcelFile.toBytes = .ok parcelFile := by
  have hvalid : parcelFile.schema.validate = .ok () := eq_ok_of_toOption (by decide +kernel)
  have hresolve : parcelFile.schema.resolvePointers = .ok () :=
    eq_ok_of_toOption (by decide +kernel)
  have hnesting : parcelFile.toJson.nesting = 8 := by decide +kernel
  have hweight : Json.ReadsBack 0.0 ∧ Json.ReadsBack 30.0 ∧ Json.ReadsBack 0.5 := ⟨rfl, rfl, rfl⟩
  have hnumbers : ∀ m ∈ Node.walkList parcelFile.fields, m.NumbersReadBack := by
    simpa [parcelFile, Node.walkList, Node.walk, Node.walkAt, Node.NumbersReadBack] using hweight
  exact ⟨hvalid, hresolve, hnesting, ofText_toText_and_ofBytes_toBytes hvalid hresolve
    (hnesting ▸ by decide) hnumbers⟩

end SchemaFile

end FieldGrammar
