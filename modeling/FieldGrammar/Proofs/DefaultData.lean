import Mathlib
import FieldGrammar.Node.Defaults
import FieldGrammar.Proofs.DataRoundTrip
import FieldGrammar.Proofs.MetaSchemas

/-!
# When defaults can be packed

The defaults of a schema need not be data of the schema.  An empty array is no default of a field
that asks for items, and null is none of a pointer unless its target is optional and may be
entered.  Only the fields that the defaults have matter: they do not reach into optional fields,
items of arrays, targets of pointers, or variants other than the first.  These are the *required*
nodes, and defaults can be packed exactly when each of them admits its own default.

One equivalence for a single level carries the argument in both directions: the default of a node
can be written when the node admits it and the defaults of its fields can be written.  A grid keeps
the order of the bounds, so fixed-point fields ask for nothing.

Defaults that can be packed are in normal form where no number is rounded to a grid, so unpacking
returns them as they are.

## Main definitions

* `Node.defaultFields` — the fields that the default of a node has
* `Node.Required` — a node whose default is part of the defaults of the schema
* `Node.AdmitsDefault` — what a node asks for on its own

## Main statements

* `Packing.writable_default_iff` — one level
* `packData_defaultObject` — the defaults of a schema
-/

namespace FieldGrammar

namespace Node

/-- The fields that the default of a node has: those of an object, and those of the variant of a
union's first option. -/
def defaultFields : Node → List Node
  | object _ fields => fields
  | union _ discriminator variants =>
    match discriminator.options with
    | [] => []
    | option :: _ => (Entries.get? variants option).getD []
  | _ => []

/-- The default of the node is part of the defaults of the schema.  It is reached from a field of
the schema through the fields that defaults have, and never through a pointer. -/
inductive Required (scope : List Node) : Node → Prop
  | field {field : Node} (h : field ∈ scope) : Required scope field
  | nested {parent field : Node} (h : Required scope parent) (hmem : field ∈ parent.defaultFields) :
      Required scope field

/-- No field of a union's first variant is called like the discriminator.  Otherwise the default of
that field takes the place of the option in the default of the union. -/
def FirstVariantApart : Node → Prop
  | union name discriminator variants =>
    discriminator.name ∉ (union name discriminator variants).defaultFields.map Node.name
  | _ => True

instance : DecidablePred FirstVariantApart
  | union .. => inferInstanceAs (Decidable (_ ∉ _))
  | bool .. | int .. | fixed .. | enumeration .. | optional .. | array .. | enumArray ..
  | object .. | pointer .. => isTrue trivial

/-- What the default of a node needs: no items are asked for, and a pointer leads to an optional
field within the bound on following pointers. -/
def AdmitsDefault (scope : List Node) (pointerDepth : Nat) : Node → Prop
  | array _ minLength _ _ => minLength = 0
  | enumArray _ minLength _ _ => minLength = 0
  | pointer _ target =>
    1 ≤ pointerDepth ∧ ∃ name inner, resolveTarget scope target = some (optional name inner)
  | _ => True

/-! ### Required nodes -/

theorem mem_children_of_mem_defaultFields {node field : Node} (h : field ∈ node.defaultFields) :
    field ∈ node.children := by
  cases node with
  | object name fields => exact h
  | union name discriminator variants =>
      rw [defaultFields] at h
      split at h
      · cases h
      · next option rest hoptions =>
        exact mem_children_union.2 ⟨option, hoptions ▸ List.mem_cons_self, h⟩
  | bool | int | fixed | enumeration | optional | array | enumArray | pointer => cases h

theorem Required.mem_walk_scope {scope : List Node} {node : Node} (h : Required scope node) :
    node ∈ walkList scope := by
  induction h with
  | field h => exact mem_walkList.2 ⟨_, h, mem_walk_self _⟩
  | nested _ hmem ih =>
      exact walk_subset_walkList ih
        (mem_walk.2 (.inr ⟨_, mem_children_of_mem_defaultFields hmem, mem_walk_self _⟩))

/-- What a schema requires of a valid scope is valid. -/
theorem Required.valid {scope : List Node} (hscope : ∀ field ∈ scope, field.Valid) {node : Node}
    (h : Required scope node) : node.Valid := by
  obtain ⟨field, hfield, hmem⟩ := Node.mem_walkList.1 h.mem_walk_scope
  exact (hscope field hfield).of_mem_walk hmem

/-- What a required node inherits from the fields of its default holds of every required node. -/
theorem forall_required {scope : List Node} {P : Node → Prop}
    (step : ∀ node, Required scope node → (∀ field ∈ node.defaultFields, P field) → P node)
    (node : Node) (h : Required scope node) : P node := by
  induction node using induction_children with
  | step node ih =>
      exact step node h fun field hmem =>
        ih field (mem_children_of_mem_defaultFields hmem) (.nested h hmem)

/-! ### Default values -/

theorem keys_defaultPairs (fields : List Node) :
    Entries.keys (defaultPairs fields) = fields.map Node.name := by
  rw [defaultPairs_eq, Entries.keys, List.map_map]
  rfl

/-- With distinct names, each field finds its own default. -/
theorem get?_defaultPairs {fields : List Node} (hnames : (fields.map Node.name).Nodup)
    {field : Node} (hfield : field ∈ fields) :
    Entries.get? (defaultPairs fields) field.name = some field.default := by
  rw [Entries.get?_eq_some_iff (by rwa [keys_defaultPairs]), defaultPairs_eq]
  exact List.mem_map_of_mem hfield

theorem default_object {name : String} {fields : List Node}
    (hnames : (fields.map Node.name).Nodup) :
    (object name fields).default = .object (defaultPairs fields) := by
  rw [default, Entries.ofList_of_nodup (by rwa [keys_defaultPairs])]

/-- The default of a union whose first variant leaves the discriminator alone: each field of the
variant finds its own default after it. -/
theorem exists_default_union {name : String} {discriminator : Enumeration}
    {variants : Entries (List Node)} (hvalid : (union name discriminator variants).Valid)
    (hapart : (union name discriminator variants).FirstVariantApart) :
    ∃ option fields, (Entries.get? variants option).getD [] = fields ∧
      option ∈ discriminator.options ∧
      (union name discriminator variants).defaultFields = fields ∧
      discriminator.name ∉ Entries.keys (defaultPairs fields) ∧
      (∀ field ∈ fields, Entries.get? ((discriminator.name, .string option) ::
        defaultPairs fields) field.name = some field.default) ∧
      (union name discriminator variants).default =
        .object ((discriminator.name, .string option) :: defaultPairs fields) := by
  obtain ⟨⟨hne, -⟩, -, hvariants⟩ := valid_union_iff.1 hvalid
  obtain ⟨own, options⟩ := discriminator
  cases options with
  | nil => exact absurd rfl hne
  | cons option rest =>
      have hnames : (((Entries.get? variants option).getD []).map Node.name).Nodup := by
        cases hget : Entries.get? variants option with
        | none => exact List.nodup_nil
        | some fields => exact (hvariants _ (Entries.mem_of_get?_eq_some hget)).1
      have hown : own ∉ ((Entries.get? variants option).getD []).map Node.name := hapart
      refine ⟨option, _, rfl, List.mem_cons_self, rfl, ?_, fun field hfield => ?_, ?_⟩
      · rwa [keys_defaultPairs]
      · have hother : own ≠ field.name := fun heq => hown (heq ▸ List.mem_map_of_mem hfield)
        rw [Entries.get?_cons_of_ne hother, get?_defaultPairs hnames hfield]
      · rw [default]
        dsimp only
        rw [defaultPairsAt_eq, Entries.insertAll_of_disjoint (by rwa [keys_defaultPairs])]
        · rfl
        · intro key hkey hmem
          rw [keys_defaultPairs] at hkey
          have hkeyOwn : key = own := List.mem_singleton.1 hmem
          exact hown (hkeyOwn ▸ hkey)

end Node

namespace Packing

section

variable {follow : WritePointer}

/-! ### Writing defaults -/

/-- Null can be written where a field is optional, and at no other node that describes data.
Pointers are left out, as it is their target that decides. -/
theorem writable_null_iff {node : Node} (h : node.isPointer = false) :
    Writable follow node .null ↔ ∃ name inner, node = .optional name inner := by
  cases node with
  | optional name inner =>
      exact ⟨fun _ => ⟨name, inner, rfl⟩,
        fun _ => ⟨[false], writeNode_optional_eq_ok_iff.2 (.inl ⟨rfl, rfl⟩)⟩⟩
  | pointer => cases h
  | bool => simp [Writable, writeNode_bool_eq_ok_iff]
  | int => simp [Writable, writeNode_int_eq_ok_iff, Value.asInt?]
  | fixed => simp [Writable, writeNode_fixed_eq_ok_iff, Value.asFixed?]
  | enumeration => simp [Writable, writeNode_enumeration_eq_ok_iff, writeOption_eq_ok_iff]
  | array => simp [Writable, writeNode_array_eq_ok_iff]
  | enumArray => simp [Writable, writeNode_enumArray_eq_ok_iff]
  | object => simp [Writable, writeNode_object_eq_ok_iff]
  | union => simp [Writable, writeNode_union_eq_ok_iff]

/-- A pointer without data can be written if its target is optional and may be entered. -/
theorem writable_pointer_null_iff {scope : List Node} {limit budget : Nat} {name target : String} :
    Writable (followWrite scope limit budget) (.pointer name target) .null ↔
      (Node.pointer name target).AdmitsDefault scope budget := by
  rw [Writable, writeNode_pointer, Node.AdmitsDefault]
  cases hresolve : resolveTarget scope target with
  | none => simp [followWrite_missing hresolve]
  | some node =>
      cases budget with
      | zero => simp [followWrite_zero hresolve]
      | succ budget =>
          have hnull := @writable_null_iff (followWrite scope limit budget) node
            (resolveTarget_some hresolve).1
          rw [followWrite_succ hresolve]
          simp only [Option.some.injEq, Nat.le_add_left, true_and]
          exact hnull

/-- An empty list can be written where no items are asked for. -/
theorem exists_writeLength_zero_iff {name : String} {minLength maxLength : UInt32} :
    (∃ bits, writeLength name 0 minLength maxLength = .ok bits) ↔ minLength = 0 := by
  simp only [writeLength_eq_ok_iff, exists_and_left, exists_eq, and_true, Nat.le_zero_eq,
    Nat.zero_le]
  exact UInt32.toNat_inj (b := 0)

/-- An empty list of options can be written where no items are asked for. -/
theorem writable_enumArray_nil_iff {name : String} {minLength maxLength : UInt32}
    {e : Enumeration} :
    Writable follow (.enumArray name minLength maxLength e) (.array []) ↔ minLength = 0 := by
  rw [← @exists_writeLength_zero_iff name minLength maxLength, Writable]
  simp only [writeNode_enumArray_eq_ok_iff]
  constructor
  · rintro ⟨_, length, pairs, hpairs, hlength, -⟩
    have hnil : pairs = [] := by simpa using hpairs
    subst hnil
    exact ⟨length, hlength⟩
  · rintro ⟨length, hlength⟩
    exact ⟨_, length, [], rfl, hlength, by simp, rfl⟩

/-- A field that has its default among the entries of an object is written as that. -/
theorem forall_writable_getOrNull_iff {fields : List Node} {entries : Entries Value}
    (h : ∀ field ∈ fields, Entries.get? entries field.name = some field.default) :
    (∀ field ∈ fields, Writable follow field (Entries.getOrNull entries field.name)) ↔
      ∀ field ∈ fields, Writable follow field field.default := by
  refine forall₂_congr fun field hfield => ?_
  rw [Entries.getOrNull, h field hfield, Option.getD_some]

/-- **The default of a node can be written when the node admits it and the defaults of its fields
can be written.** -/
theorem writable_default_iff {scope : List Node} {limit budget : Nat} {node : Node}
    (hvalid : node.Valid) (hapart : node.FirstVariantApart) :
    Writable (followWrite scope limit budget) node node.default ↔
      node.AdmitsDefault scope budget ∧
        ∀ field ∈ node.defaultFields,
          Writable (followWrite scope limit budget) field field.default := by
  cases node with
  | bool name => simp [Writable, writeNode_bool_eq_ok_iff, Node.default, Node.AdmitsDefault,
      Node.defaultFields]
  | int name min max =>
      have hle := Node.valid_int_iff.1 hvalid
      simp [Node.default, Node.AdmitsDefault, Node.defaultFields, writable_int_iff, hle]
  | fixed name min max precision =>
      obtain ⟨⟨hmin, hmax, hfinite⟩, hle, hpos⟩ := Node.valid_fixed_iff.1 hvalid
      -- The default is the lower bound, whose step is not above that of the upper one.
      have hsteps := Grid.stepsOf_le_of_not_lt hfinite hpos hmin hmax hle
      simp [Node.default, Node.AdmitsDefault, Node.defaultFields, writable_fixed_iff, hmin, hsteps]
  | enumeration e =>
      obtain ⟨own, options⟩ := e
      cases options with
      | nil => exact absurd rfl (Node.valid_enumeration_iff.1 hvalid).1
      | cons option rest =>
          obtain ⟨bits, hbits⟩ := @exists_writeOption ⟨own, option :: rest⟩ option
            List.mem_cons_self
          simp only [Node.AdmitsDefault, Node.defaultFields, List.not_mem_nil, false_implies,
            implies_true, and_self, iff_true]
          exact ⟨bits, writeNode_enumeration_eq_ok_iff.2 ⟨option, hbits⟩⟩
  | optional name inner =>
      -- Optional fields and arrays start empty, so what they contain is not asked for.
      have hnull := @writable_null_iff (followWrite scope limit budget) (.optional name inner) rfl
      simp [Node.default, Node.AdmitsDefault, Node.defaultFields, hnull]
  | array name minLength maxLength item =>
      simp [Node.default, Node.AdmitsDefault, Node.defaultFields, writable_array_iff,
        ← UInt32.toNat_inj]
  | enumArray name minLength maxLength e =>
      simp only [Node.default, Node.AdmitsDefault, Node.defaultFields, List.not_mem_nil,
        false_implies, implies_true, and_true]
      exact writable_enumArray_nil_iff
  | object name fields =>
      obtain ⟨hnames, -⟩ := Node.valid_object_iff.1 hvalid
      rw [Node.default_object hnames, writable_object_iff,
        forall_writable_getOrNull_iff fun field => Node.get?_defaultPairs hnames]
      simp only [Node.AdmitsDefault, Node.defaultFields, true_and]
  | union name discriminator variants =>
      obtain ⟨option, fields, hvariant, hoption, hfields, -, hget, hdefault⟩ :=
        Node.exists_default_union hvalid hapart
      rw [hdefault, hfields, writable_union_iff (Entries.getOrNull_cons_self ..), hvariant,
        forall_writable_getOrNull_iff hget]
      simp only [Node.AdmitsDefault, hoption, true_and]
  | pointer name target =>
      simp only [Node.default, Node.defaultFields, List.not_mem_nil, false_implies, implies_true,
        and_true]
      exact writable_pointer_null_iff

/-- **The defaults of the fields of a schema can be written exactly when every required node admits
its own default.** -/
theorem writable_defaults_iff {scope : List Node} {limit budget : Nat}
    (hscope : ∀ field ∈ scope, field.Valid)
    (hapart : ∀ node, Node.Required scope node → node.FirstVariantApart) :
    (∀ field ∈ scope, Writable (followWrite scope limit budget) field field.default) ↔
      ∀ node, Node.Required scope node → node.AdmitsDefault scope budget := by
  constructor
  · intro hwritable node hrequired
    -- Downwards: what can be written has fields whose defaults can be written.
    have hall : Writable (followWrite scope limit budget) node node.default := by
      induction hrequired with
      | field h => exact hwritable _ h
      | nested h hmem ih =>
          exact ((writable_default_iff (h.valid hscope) (hapart _ h)).1 ih).2 _ hmem
    exact ((writable_default_iff (hrequired.valid hscope) (hapart node hrequired)).1 hall).1
  · intro hadmits field hfield
    -- Upwards: a node whose fields can be written can be written itself.
    exact Node.forall_required (fun node h hfields =>
      (writable_default_iff (h.valid hscope) (hapart node h)).2 ⟨hadmits node h, hfields⟩) field
      (.field hfield)

end

/-! ### Defaults in normal form -/

section

variable {follow : ProjectPointer}

/-- The entries of fields whose defaults are in normal form are in normal form. -/
theorem projectFields_of_default {fields : List Node} {entries : Entries Value}
    (hget : ∀ field ∈ fields, Entries.get? entries field.name = some field.default)
    (hfields : ∀ field ∈ fields,
      projectNode normalLeaf follow field field.default = field.default) :
    projectFields normalLeaf follow fields entries = Node.defaultPairs fields := by
  rw [projectFields_eq, Node.defaultPairs_eq]
  refine List.map_congr_left fun field hfield => ?_
  rw [Entries.getOrNull, hget field hfield, Option.getD_some, hfields field hfield]

/-- The default of a node is in normal form if no number is rounded to a grid, the defaults of its
fields are in normal form, and null is at pointers. -/
theorem projectNode_default (hfollow : ∀ name target, follow name target .null = .null)
    {node : Node} (hvalid : node.Valid) (hapart : node.FirstVariantApart)
    (hkind : node.kind ≠ .fixed)
    (hfields : ∀ field ∈ node.defaultFields,
      projectNode normalLeaf follow field field.default = field.default) :
    projectNode normalLeaf follow node node.default = node.default := by
  cases node with
  | bool | int | enumeration | optional | array | enumArray => rfl
  | fixed => exact absurd rfl hkind
  | object name fields =>
      obtain ⟨hnames, -⟩ := Node.valid_object_iff.1 hvalid
      rw [Node.default_object hnames, projectNode, Value.asObject?]
      dsimp only
      rw [projectFields_of_default (fun field => Node.get?_defaultPairs hnames) hfields]
  | union name discriminator variants =>
      obtain ⟨option, fields, hvariant, -, hdefaultFields, hown, hget, hdefault⟩ :=
        Node.exists_default_union hvalid hapart
      rw [hdefaultFields] at hfields
      rw [hdefault, projectNode_union_of_string (Entries.getOrNull_cons_self ..), hvariant,
        projectFields_of_default hget hfields, List.filter_eq_self.2]
      intro pair hpair
      have hne : pair.1 ≠ discriminator.name := fun heq => hown (heq ▸ List.mem_map_of_mem hpair)
      exact decide_eq_true hne
  | pointer name target => exact hfollow name target

end

end Packing

/-! ### Default objects -/

section

variable {name : String} {fields : List Node} {options : CodecOptions}

/-- The default object of a valid schema, field by field. -/
theorem get?_defaultObject (hnames : (fields.map Node.name).Nodup) {field : Node}
    (hfield : field ∈ fields) :
    Entries.get? (defaultObject fields) field.name = some field.default := by
  rw [defaultObject, Entries.ofList_of_nodup (by rwa [Node.keys_defaultPairs])]
  exact Node.get?_defaultPairs hnames hfield

/-- The default object is in normal form if no number in it is rounded to a grid.  Its entries are
those of the fields in their order, as in what is read. -/
theorem normalData_defaultObject (hnames : (fields.map Node.name).Nodup)
    (hfields : ∀ field ∈ fields, field.Valid)
    (hapart : ∀ node, Node.Required fields node → node.FirstVariantApart)
    (hfixed : ∀ node, Node.Required fields node → node.kind ≠ .fixed) :
    normalData fields (.object (defaultObject fields)) options =
      .object (defaultObject fields) := by
  have hnull : ∀ name target, Packing.followProject Packing.normalLeaf fields
      options.pointerDepth name target .null = .null := fun name target =>
    Value.isNull_iff.1 ((Packing.keepsShape_followProject Packing.keepsShape_normalLeaf fields
      options.pointerDepth name target).isNull .null)
  have hnormal := @Node.forall_required fields _ fun node h =>
    Packing.projectNode_default hnull (h.valid hfields) (hapart node h) (hfixed node h)
  rw [normalData, projectData, Value.asObject?]
  dsimp only
  rw [Packing.projectFields_of_default (fun field => get?_defaultObject hnames)
    fun field hfield => hnormal field (.field hfield), defaultObject,
    Entries.ofList_of_nodup (by rwa [Node.keys_defaultPairs])]

/-- **The defaults of a schema can be packed exactly when every required node admits its own
default**, and they are unpacked as they are unless a number among them is rounded to a grid.  The
schema is valid, and no required union has a field in its first variant that takes the place of the
discriminator.  Nodes that are not required do not matter: an array may start empty, and an optional
field starts with nothing. -/
theorem packData_defaultObject (hvalid : Schema.validate ⟨name, fields⟩ = .ok ())
    (hapart : ∀ node, Node.Required fields node → node.FirstVariantApart) :
    ((∃ bytes, packData fields (.object (defaultObject fields)) options = .ok bytes) ↔
      ∀ node, Node.Required fields node → node.AdmitsDefault fields options.pointerDepth) ∧
    ((∀ node, Node.Required fields node → node.kind ≠ .fixed) →
      ∀ bytes, packData fields (.object (defaultObject fields)) options = .ok bytes →
        unpackData fields bytes options = .ok (.object (defaultObject fields))) := by
  obtain ⟨hnames, hfields⟩ := Schema.validate_eq_ok_iff.1 hvalid
  constructor
  · rw [← @Packing.writable_defaults_iff _ options.pointerDepth _ hfields hapart,
      ← Packing.forall_writable_getOrNull_iff fun field => get?_defaultObject hnames,
      ← Packing.exists_writeFields_iff]
    simp only [packData_eq_ok_iff, Packing.writeData, Value.asObject?]
    constructor
    · rintro ⟨_, bits, hbits, -⟩
      exact ⟨bits, hbits⟩
    · rintro ⟨bits, hbits⟩
      exact ⟨_, bits, hbits, rfl⟩
  · intro hfixed bytes hpack
    obtain ⟨bits, hbits, rfl⟩ := packData_eq_ok_iff.1 hpack
    rw [Packing.unpackData_toBytes hnames hfields hbits,
      normalData_defaultObject hnames hfields hapart hfixed]

end

/-- A form whose defaults can be packed: neither the list of at least two docks nor the variant that
asks for a port is required. -/
def voyageForm : List Node :=
  [.object "cargo" [.int "weight" 1 200, .pointer "origin" "landing"],
    .union "route" ⟨"kind", ["road", "sea"]⟩
      [("sea", [.array "ports" 1 4 (.bool "open")]),
        ("road", [.bool "toll", .enumArray "lanes" 0 3 ⟨"lane", ["left", "right"]⟩])],
    .optional "landing" (.array "docks" 2 3 (.pointer "next" "route"))]

theorem packData_defaultObject_voyageForm :
    Schema.validate ⟨"voyage", voyageForm⟩ = .ok () ∧
    (∀ node, Node.Required voyageForm node → node.FirstVariantApart) ∧
    (∀ node, Node.Required voyageForm node → node.kind ≠ .fixed) ∧
    packData voyageForm (.object (defaultObject voyageForm)) { pointerDepth := 1 } = .ok [0, 0] ∧
    unpackData voyageForm [0, 0] { pointerDepth := 1 } = .ok (.object (defaultObject voyageForm)) ∧
    ∀ bytes, packData voyageForm (.object (defaultObject voyageForm)) { pointerDepth := 0 } ≠
      .ok bytes := by
  have hvalid : Schema.validate ⟨"voyage", voyageForm⟩ = .ok () := rfl
  have hwalk : ∀ node ∈ Node.walkList voyageForm,
      node.FirstVariantApart ∧ node.kind ≠ .fixed := by
    decide
  have hapart : ∀ node, Node.Required voyageForm node → node.FirstVariantApart :=
    fun node h => (hwalk node h.mem_walk_scope).1
  have hfixed : ∀ node, Node.Required voyageForm node → node.kind ≠ .fixed :=
    fun node h => (hwalk node h.mem_walk_scope).2
  have hpack : packData voyageForm (.object (defaultObject voyageForm)) { pointerDepth := 1 } =
      .ok [0, 0] := eq_ok_of_toOption (by decide +kernel)
  refine ⟨hvalid, hapart, hfixed, hpack,
    (packData_defaultObject hvalid hapart).2 hfixed _ hpack, fun bytes hbytes => ?_⟩
  have horigin : Node.Required voyageForm (.pointer "origin" "landing") :=
    .nested (.field List.mem_cons_self) (List.mem_cons_of_mem _ List.mem_cons_self)
  have hadmits := (packData_defaultObject hvalid hapart).1.1 ⟨bytes, hbytes⟩ _ horigin
  exact absurd hadmits.1 (by decide)

end FieldGrammar
