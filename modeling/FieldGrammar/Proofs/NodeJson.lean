import Mathlib
import FieldGrammar.Interchange.Node
import FieldGrammar.Proofs.JsonText
import FieldGrammar.Proofs.Lookup
import FieldGrammar.Proofs.Trees

/-!
# Nodes and schemas are read back from JSON values

The JSON value of a node is an object of its kind and attributes, so a node is read from it as it
was, as long as the nested nodes are.  The bound on nesting is met from two sides: a schema is
read only if the parts of its value nest within the bound, and reading descends one level for each
nested node, which are no more.

A union is read with the last variant of each name, so its variants come back only if their names
are distinct, as in a valid union they are.

## Main definitions

* `Node.NumbersReadBack` — the text of each number of the node is read back to the number

## Main statements

* `Node.legible_toJson` — the value of a node is read back from its text
* `Node.ofJson?_toJson`, `Schema.ofJson?_toJson` — a node and a schema are read from their values
-/

namespace FieldGrammar

namespace Json

/-! ### Nesting -/

/-- Items are readable within some levels when each of them is. -/
theorem itemsReadableWithin_iff {levels : Nat} {items : List Json} :
    itemsReadableWithin levels items = true ↔
      ∀ item ∈ items, item.readableWithin levels = true := by
  induction items with
  | nil => simp [itemsReadableWithin]
  | cons item rest ih =>
      rw [itemsReadableWithin, Bool.and_eq_true, ih, List.forall_mem_cons]

/-- Members are readable within some levels when the value of each is. -/
theorem membersReadableWithin_iff {levels : Nat} {members : List (String × Json)} :
    membersReadableWithin levels members = true ↔
      ∀ entry ∈ members, entry.2.readableWithin levels = true := by
  induction members with
  | nil => simp [membersReadableWithin]
  | cons entry rest ih =>
      rw [membersReadableWithin, Bool.and_eq_true, ih, List.forall_mem_cons]

/-- An array takes one level, and its items have the others. -/
theorem readableWithin_array_iff {levels : Nat} {items : List Json} :
    (array items).readableWithin levels = true ↔
      ∃ below, levels = below + 1 ∧ ∀ item ∈ items, item.readableWithin below = true := by
  cases levels with
  | zero => simp [readableWithin]
  | succ below => simp [readableWithin, itemsReadableWithin_iff]

/-- An object takes one level, and the values of its members have the others. -/
theorem readableWithin_object_iff {levels : Nat} {members : List (String × Json)} :
    (object members).readableWithin levels = true ↔
      ∃ below, levels = below + 1 ∧ ∀ entry ∈ members, entry.2.readableWithin below = true := by
  cases levels with
  | zero => simp [readableWithin]
  | succ below => simp [readableWithin, membersReadableWithin_iff]

/-! ### Numbers and strings -/

/-- A 64-bit integer is read back, as it is in range. -/
theorem asInt64?_toInt (n : Int64) : (int n.toInt).asInt64? = some n := by
  have hrange : Int64.minValue.toInt ≤ n.toInt ∧ n.toInt ≤ Int64.maxValue.toInt :=
    ⟨n.minValue_le_toInt, n.toInt_le⟩
  rw [asInt64?, if_pos hrange, Int64.ofInt_toInt]

/-- A length is read back, as a 32-bit word is in range. -/
theorem asUInt32?_lengthJson (n : UInt32) : (Node.lengthJson n).asUInt32? = some n := by
  have hrange : 0 ≤ (n.toNat : Int) ∧ (n.toNat : Int) < UInt32.size :=
    ⟨Int.natCast_nonneg _, by exact_mod_cast n.toNat_lt⟩
  rw [Node.lengthJson, asUInt32?, if_pos hrange, Int.toNat_natCast, UInt32.ofNat_toNat]

theorem asStrings?_map_string (strings : List String) :
    (array (strings.map .string)).asStrings? = some strings :=
  mapM_map_eq_some fun _ _ => rfl

/-- The text of a 64-bit integer is read back, since numerals are read exactly in the range of these
integers. -/
theorem legible_int64 (n : Int64) : Legible (.int n.toInt) := by
  have hsize : (Int64.maxValue.toInt : Int) < UInt64.size := by decide
  exact .int n.minValue_le_toInt (n.toInt_le.trans_lt hsize)

theorem legible_length (n : UInt32) : Legible (Node.lengthJson n) := by
  have hn := n.toNat_lt
  have hleast : Int64.minValue.toInt = -2 ^ 63 := rfl
  have hsize : UInt64.size = 2 ^ 64 := rfl
  exact .int (by omega) (by omega)

theorem legible_strings (strings : List String) : Legible (.array (strings.map .string)) :=
  .array (List.forall_mem_map.2 fun s _ => .string s)

end Json

namespace Enumeration

theorem legible_toJson (e : Enumeration) : e.toJson.Legible :=
  .object (List.forall_mem_cons.2 ⟨.string e.name,
    List.forall_mem_singleton.2 (Json.legible_strings e.options)⟩)

/-- An enumeration is read from the object of its name and options. -/
theorem ofJson?_toJson (e : Enumeration) : ofJson? e.toJson = some e := by
  show ((Json.array (e.options.map .string)).asStrings? >>= fun options =>
    some (⟨e.name, options⟩ : Enumeration)) = some e
  rw [Json.asStrings?_map_string]
  rfl

end Enumeration

namespace Node

/-- The values of fields are those of each field.  As with values, the recursion is opened once. -/
theorem toJsonList_eq (fields : List Node) : toJsonList fields = fields.map toJson := by
  induction fields with
  | nil => rfl
  | cons field rest ih => rw [toJsonList, ih, List.map_cons]

/-- The member of a variant. -/
def variantJson (entry : String × List Node) : String × Json :=
  (entry.1, .array (entry.2.map toJson))

/-- The members for variants are those of each variant, in the order in which they are stored. -/
theorem toJsonVariants_eq (variants : List (String × List Node)) :
    toJsonVariants variants = variants.map variantJson := by
  induction variants with
  | nil => rfl
  | cons entry rest ih => rw [toJsonVariants, ih, toJsonList_eq, List.map_cons, variantJson]

/-! ### The text of a node -/

/-- The text of each number of the node is read back to the number.  Only fixed-point nodes have
numbers for which this may fail. -/
def NumbersReadBack : Node → Prop
  | fixed _ min max precision =>
    Json.ReadsBack min ∧ Json.ReadsBack max ∧ Json.ReadsBack precision
  | _ => True

/-- The object of a kind is read back from its text if the values of its attributes are: its kind
and its name are strings. -/
theorem legible_taggedJson {kind : Kind} {name : String} {rest : List (String × Json)}
    (h : ∀ entry ∈ rest, entry.2.Legible) : (taggedJson kind name rest).Legible :=
  .object (List.forall_mem_cons.2 ⟨.string kind.tag, List.forall_mem_cons.2 ⟨.string name, h⟩⟩)

/-- The node is valid and its numbers, with those of the nodes below it, are read back. -/
def Writable (node : Node) : Prop :=
  node.Valid ∧ ∀ m ∈ node.walk, m.NumbersReadBack

/-- The nodes below are valid and have numbers that are read back, as the walk goes through them. -/
theorem Writable.of_mem_children {node child : Node} (h : node.Writable)
    (hchild : child ∈ node.children) : child.Writable :=
  ⟨(valid_iff.1 h.1).2 child hchild, (forall_mem_walk_iff.1 h.2).2 child hchild⟩

/-- **The value of a valid node is read back from its text** if its numbers are. -/
theorem legible_toJson {node : Node} (h : node.Writable) : node.toJson.Legible := by
  induction node with
  | bool name => exact legible_taggedJson nofun
  | int name min max =>
      refine legible_taggedJson (List.forall_mem_cons.2 ⟨Json.legible_int64 min, ?_⟩)
      exact List.forall_mem_singleton.2 (Json.legible_int64 max)
  | fixed name min max precision =>
      obtain ⟨hmin, hmax, hprecision⟩ := h.2 _ (mem_walk_self _)
      refine legible_taggedJson (List.forall_mem_cons.2 ⟨.real hmin, ?_⟩)
      exact List.forall_mem_cons.2 ⟨.real hmax, List.forall_mem_singleton.2 (.real hprecision)⟩
  | enumeration e =>
      exact legible_taggedJson (List.forall_mem_singleton.2 (Json.legible_strings e.options))
  | optional name inner ih =>
      have hinner := h.of_mem_children (List.mem_singleton_self inner)
      exact legible_taggedJson (List.forall_mem_singleton.2 (ih hinner))
  | array name minLength maxLength item ih =>
      have hitem := h.of_mem_children (List.mem_singleton_self item)
      refine legible_taggedJson (List.forall_mem_cons.2 ⟨Json.legible_length minLength, ?_⟩)
      refine List.forall_mem_cons.2 ⟨Json.legible_length maxLength, ?_⟩
      exact List.forall_mem_singleton.2 (ih hitem)
  | enumArray name minLength maxLength e =>
      refine legible_taggedJson (List.forall_mem_cons.2 ⟨Json.legible_length minLength, ?_⟩)
      refine List.forall_mem_cons.2 ⟨Json.legible_length maxLength, ?_⟩
      exact List.forall_mem_singleton.2 e.legible_toJson
  | object name fields ih =>
      refine legible_taggedJson (List.forall_mem_singleton.2 (.array ?_))
      rw [toJsonList_eq]
      exact List.forall_mem_map.2 fun field hfield => ih field hfield (h.of_mem_children hfield)
  | union name discriminator variants ih =>
      have hfields := forall_variants_of_children h.1 fun child => h.of_mem_children
      refine legible_taggedJson (List.forall_mem_cons.2 ⟨discriminator.legible_toJson, ?_⟩)
      refine List.forall_mem_singleton.2 (.object ?_)
      rw [toJsonVariants_eq]
      refine List.forall_mem_map.2 fun entry hentry => .array (List.forall_mem_map.2 ?_)
      exact fun field hfield => ih entry hentry field hfield (hfields entry hentry field hfield)
  | pointer name target => exact legible_taggedJson (List.forall_mem_singleton.2 (.string target))

/-! ### The node of a value -/

/-- The node is read from its value with as many levels as the value nests, or more.  The number of
levels is what the reader descends by, so the property is kept for all that suffice. -/
def ReadFromJson (node : Node) : Prop :=
  ∀ numbered levels fuel, node.toJson.readableWithin levels = true → levels ≤ fuel →
    ofJson? numbered fuel node.toJson = some node

/-- A value takes one level, and the attributes in it have those below. -/
theorem ReadFromJson.of_attributes {node : Node} {kind : Kind} {name : String}
    {rest : List (String × Json)} (hjson : node.toJson = taggedJson kind name rest)
    (step : ∀ numbered below fuel, (∀ entry ∈ rest, entry.2.readableWithin below = true) →
      below ≤ fuel → ofJson? numbered (fuel + 1) node.toJson = some node) :
    node.ReadFromJson := by
  intro numbered levels fuel hnesting hfuel
  rw [hjson] at hnesting
  obtain ⟨below, rfl, hmembers⟩ := Json.readableWithin_object_iff.1 hnesting
  obtain ⟨fuel, rfl⟩ := Nat.exists_eq_add_of_le' hfuel
  obtain ⟨-, hmembers⟩ := List.forall_mem_cons.1 hmembers
  obtain ⟨-, hrest⟩ := List.forall_mem_cons.1 hmembers
  exact step numbered below (fuel + below) hrest (Nat.le_add_left below fuel)

/-- The fields of a list are read one by one. -/
theorem mapM_ofJson?_toJson {fields : List Node} (h : ∀ field ∈ fields, field.ReadFromJson)
    {levels fuel : Nat} (numbered : Bool)
    (hnesting : (Json.array (fields.map toJson)).readableWithin levels = true)
    (hfuel : levels ≤ fuel) :
    (fields.map toJson).mapM (ofJson? numbered fuel) = some fields := by
  obtain ⟨below, rfl, hitems⟩ := Json.readableWithin_array_iff.1 hnesting
  refine mapM_map_eq_some fun field hfield => ?_
  exact h field hfield numbered below fuel (hitems _ (List.mem_map_of_mem hfield)) (by omega)

/-- The variants of a union are read one by one, each with the list of its fields. -/
theorem mapM_variants {variants : List (String × List Node)}
    (h : ∀ entry ∈ variants, ∀ field ∈ entry.2, field.ReadFromJson) {levels fuel : Nat}
    (hnesting : (Json.object (variants.map variantJson)).readableWithin levels = true)
    (hfuel : levels ≤ fuel) :
    ((variants.map variantJson).mapM fun (key, value) => do
      return (key, ← (← value.asArray?).mapM (ofJson? true fuel))) = some variants := by
  obtain ⟨below, rfl, hmembers⟩ := Json.readableWithin_object_iff.1 hnesting
  have hfields : ∀ entry ∈ variants,
      (entry.2.map toJson).mapM (ofJson? true fuel) = some entry.2 := fun entry hentry =>
    mapM_ofJson?_toJson (h entry hentry) true (hmembers _ (List.mem_map_of_mem hentry)) (by omega)
  clear h hnesting hmembers
  induction variants with
  | nil => rfl
  | cons entry rest ih =>
      obtain ⟨hentry, hrest⟩ := List.forall_mem_cons.1 hfields
      rw [List.map_cons, List.mapM_cons, ih hrest]
      show (((entry.2.map toJson).mapM (ofJson? true fuel) >>= fun fields =>
        some (entry.1, fields)) >>= fun first => some rest >>= fun more =>
          some (first :: more)) = _
      rw [hentry]
      rfl

/-- An object of a kind and its attributes is the record of these attributes. -/
theorem taggedRecord?_taggedJson {kind : Kind} {name : String} {rest : List (String × Json)}
    (honce : Json.eachOnce (("type", .string kind.tag) :: ("name", .string name) :: rest)
      ("type" :: attributes kind) = true) (numbered : Bool) :
    (taggedJson kind name rest).taggedRecord? numbered attributes =
      some (kind, Json.lookup (("type", .string kind.tag) :: ("name", .string name) :: rest)) := by
  have hkind : Json.lookup (("type", .string kind.tag) :: ("name", .string name) :: rest) "type" =
      some (.string kind.tag) := rfl
  rw [taggedJson, Json.taggedRecord?, hkind]
  show (Kind.ofTag? kind.tag >>= _) = _
  rw [Kind.ofTag?_tag]
  simp [honce]

section

variable {json lower upper : Json} {record : Json.Record} {numbered : Bool} {fuel : Nat}
  {name : String} {minLength maxLength : UInt32}

/-- An array is read from the record of its attributes. -/
theorem ofJson?_array {inner : Json} {item : Node}
    (hrecord : json.taggedRecord? numbered attributes = some (.array, record))
    (hname : record "name" = some (.string name)) (hlower : record "minLength" = some lower)
    (hupper : record "maxLength" = some upper) (hinner : record "item" = some inner)
    (hmin : lower.asUInt32? = some minLength) (hmax : upper.asUInt32? = some maxLength)
    (hitem : ofJson? true fuel inner = some item) :
    ofJson? numbered (fuel + 1) json = some (array name minLength maxLength item) := by
  rw [ofJson?, hrecord, Option.bind_eq_bind, Option.bind_some]
  dsimp only
  simp [hname, hlower, hupper, hinner, hmin, hmax, hitem, Json.asString?]

/-- An array of options is read from the record of its attributes. -/
theorem ofJson?_enumArray {inner : Json} {e : Enumeration}
    (hrecord : json.taggedRecord? numbered attributes = some (.enumArray, record))
    (hname : record "name" = some (.string name)) (hlower : record "minLength" = some lower)
    (hupper : record "maxLength" = some upper) (hinner : record "enum" = some inner)
    (hmin : lower.asUInt32? = some minLength) (hmax : upper.asUInt32? = some maxLength)
    (henum : Enumeration.ofJson? inner = some e) :
    ofJson? numbered (fuel + 1) json = some (enumArray name minLength maxLength e) := by
  rw [ofJson?, hrecord, Option.bind_eq_bind, Option.bind_some]
  dsimp only
  simp [hname, hlower, hupper, hinner, hmin, hmax, henum, Json.asString?]

end

/-- **A valid node is read from its value.**  The attributes of each kind are read from the record
that they were written as, and nested nodes from values that nest one level less. -/
theorem ofJson?_toJson {node : Node} (hvalid : node.Valid) : node.ReadFromJson := by
  induction node with
  | bool name =>
      refine .of_attributes rfl fun numbered below fuel _ _ => ?_
      rw [toJson, ofJson?, taggedRecord?_taggedJson rfl]
      rfl
  | int name min max =>
      refine .of_attributes rfl fun numbered below fuel _ _ => ?_
      rw [toJson, ofJson?, taggedRecord?_taggedJson rfl]
      show ((Json.int min.toInt).asInt64? >>= fun low => (Json.int max.toInt).asInt64? >>=
        fun high => some (int name low high)) = _
      rw [Json.asInt64?_toInt, Json.asInt64?_toInt]
      rfl
  | fixed name min max precision =>
      refine .of_attributes rfl fun numbered below fuel _ _ => ?_
      rw [toJson, ofJson?, taggedRecord?_taggedJson rfl]
      rfl
  | enumeration e =>
      refine .of_attributes rfl fun numbered below fuel _ _ => ?_
      rw [toJson, ofJson?, taggedRecord?_taggedJson rfl]
      show (((Json.array (e.options.map .string)).asStrings? >>= fun options =>
        some (⟨e.name, options⟩ : Enumeration)) >>= fun e => some (enumeration e)) = _
      rw [Json.asStrings?_map_string]
      rfl
  | optional name inner ih =>
      refine .of_attributes rfl fun numbered below fuel hrest hfuel => ?_
      have hinner := ih (valid_optional_iff.1 hvalid) true below fuel
        (hrest ("inner", inner.toJson) (by simp)) hfuel
      rw [toJson, ofJson?, taggedRecord?_taggedJson rfl]
      show (ofJson? true fuel inner.toJson >>= fun inner => some (optional name inner)) = _
      rw [hinner]
      rfl
  | array name minLength maxLength item ih =>
      refine .of_attributes rfl fun numbered below fuel hrest hfuel => ?_
      have hitem := ih (valid_array_iff.1 hvalid).2 true below fuel
        (hrest ("item", item.toJson) (by simp)) hfuel
      exact ofJson?_array (taggedRecord?_taggedJson rfl numbered) rfl rfl rfl rfl
        (Json.asUInt32?_lengthJson minLength) (Json.asUInt32?_lengthJson maxLength) hitem
  | enumArray name minLength maxLength e =>
      refine .of_attributes rfl fun numbered below fuel _ _ => ?_
      exact ofJson?_enumArray (taggedRecord?_taggedJson rfl numbered) rfl rfl rfl rfl
        (Json.asUInt32?_lengthJson minLength) (Json.asUInt32?_lengthJson maxLength)
        e.ofJson?_toJson
  | object name fields ih =>
      have hfields := (valid_object_iff.1 hvalid).2
      refine .of_attributes rfl fun numbered below fuel hrest hfuel => ?_
      have hnesting := hrest ("fields", .array (toJsonList fields)) (by simp)
      rw [toJsonList_eq] at hnesting
      have hread := mapM_ofJson?_toJson (fun field hfield => ih field hfield (hfields field hfield))
        true hnesting hfuel
      rw [toJson, ofJson?, taggedRecord?_taggedJson rfl, toJsonList_eq]
      show ((fields.map toJson).mapM (ofJson? true fuel) >>= fun fields =>
        some (object name fields)) = _
      rw [hread]
      rfl
  | union name discriminator variants ih =>
      obtain ⟨⟨-, hoptions⟩, hkeys, hvariants⟩ := valid_union_iff.1 hvalid
      refine .of_attributes rfl fun numbered below fuel hrest hfuel => ?_
      have hnesting := hrest ("variants", .object (toJsonVariants variants)) (by simp)
      rw [toJsonVariants_eq] at hnesting
      have hread := mapM_variants (fun entry hentry field hfield => ih entry hentry field hfield
        ((hvariants entry hentry).2 field hfield)) hnesting hfuel
      -- Collecting the variants keeps the last one of each name, and here the names differ.
      have hlist := Entries.ofList_of_nodup (hkeys.nodup_iff.2 hoptions)
      rw [toJson, ofJson?, taggedRecord?_taggedJson rfl, toJsonVariants_eq]
      show (Enumeration.ofJson? discriminator.toJson >>= fun discriminator =>
        ((variants.map variantJson).mapM fun (key, value) => do
          return (key, ← (← value.asArray?).mapM (ofJson? true fuel))) >>= fun variants =>
            some (union name discriminator (Entries.ofList variants))) = _
      rw [discriminator.ofJson?_toJson, hread]
      exact congrArg (fun variants => some (union name discriminator variants)) hlist
  | pointer name target =>
      refine .of_attributes rfl fun numbered below fuel _ _ => ?_
      rw [toJson, ofJson?, taggedRecord?_taggedJson rfl]
      rfl

end Node

/-! ### Schemas -/

namespace Schema

/-- The value of a schema is read back from its text. -/
theorem legible_toJson {schema : Schema} (h : ∀ field ∈ schema.fields, field.Writable) :
    schema.toJson.Legible := by
  refine .object (List.forall_mem_cons.2 ⟨.string schema.name, ?_⟩)
  refine List.forall_mem_singleton.2 (.array ?_)
  rw [Node.toJsonList_eq]
  exact List.forall_mem_map.2 fun field hfield => Node.legible_toJson (h field hfield)

/-- **A schema is read from its attributes** if its fields are valid and nest within the bound. -/
theorem ofRecord?_eq_some {record : Json.Record} {name : String} {fields : List Node}
    (hname : record "name" = some (.string name))
    (hfields : record "fields" = some (.array (Node.toJsonList fields)))
    (hvalid : ∀ field ∈ fields, field.Valid)
    (hnesting : (Json.array (Node.toJsonList fields)).readableWithin (Json.maxNesting - 1) = true) :
    ofRecord? record = some ⟨name, fields⟩ := by
  rw [Node.toJsonList_eq] at hfields hnesting
  have hread := Node.mapM_ofJson?_toJson (fun field hfield => Node.ofJson?_toJson
    (hvalid field hfield)) false hnesting (Nat.sub_le Json.maxNesting 1)
  have hstring : (Json.string name).readableWithin (Json.maxNesting - 1) = true := rfl
  simp [ofRecord?, readableAttribute?, hname, hfields, hstring, hnesting, Json.asString?,
    fieldsOfJson?, Json.asArray?, hread]

/-- **A schema is read from its value** if its fields are valid and the value nests within the
bound. -/
theorem ofJson?_toJson {schema : Schema} (hvalid : ∀ field ∈ schema.fields, field.Valid)
    (hnesting : schema.toJson.readableWithin Json.maxNesting = true) :
    ofJson? schema.toJson = some schema := by
  obtain ⟨below, hbelow, hmembers⟩ := Json.readableWithin_object_iff.1 hnesting
  obtain rfl : Json.maxNesting - 1 = below := by rw [hbelow]; rfl
  have hfields := hmembers ("fields", .array (Node.toJsonList schema.fields)) (by simp)
  show ofRecord? (Json.lookup [("name", .string schema.name),
    ("fields", .array (Node.toJsonList schema.fields))]) = some schema
  exact ofRecord?_eq_some rfl rfl hvalid hfields

end Schema

end FieldGrammar
