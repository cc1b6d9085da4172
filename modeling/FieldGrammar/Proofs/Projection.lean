import Mathlib
import FieldGrammar.Packing.DataToken
import FieldGrammar.Proofs.Trees

/-!
# Data as its fields see it

Writing looks at the entries that the fields declare and at nothing else.  `Packing.projectNode`
keeps exactly what is looked at, in the order of declaration, and treats the values of leaves by
a function that it is given.  Two such functions matter: leaving leaves alone gives the *declared*
part of the data, and moving numbers to the values that reading returns gives its *normal form*.

| Node | Normal form of a value |
|---|---|
| int | the integer |
| fixed | the number at the nearest step of the field's grid |
| optional | null if the value is null or missing |
| object | the declared fields, in order |
| union | the discriminator, then the fields of the chosen variant |
| pointer | the normal form for the target |

A value of the wrong kind stays as it is; such a value cannot be written.  `Packing.leavesOf`
lists the leaves that writing meets, with the values at them.

## Main definitions

* `Packing.projectNode`, `projectData` — the declared part, with leaves treated by a function
* `normalData`, `declaredData` — the normal form and the declared part of data
* `Packing.leavesOf`, `dataLeaves` — the leaves of data with their values
-/

namespace FieldGrammar

namespace Packing

/-- How a pointer is projected: its own name, the name of its target, and the value. -/
abbrev ProjectPointer := (name target : String) → Value → Value

section

variable (leaf : Node → Value → Value) (follow : ProjectPointer)

mutual

/-- The part of a value that a node declares.  Leaves are treated by a function that is passed in,
so that the normal form and the declared part are one traversal. -/
def projectNode : Node → Value → Value
  | .optional _ inner, value => if value.isNull then .null else projectNode inner value
  | .array _ _ _ item, value =>
    match value.asArray? with
    | some items => .array (items.map fun element => projectNode item element)
    | none => value
  | .object _ fields, value =>
    match value.asObject? with
    | some entries => .object (projectFields fields entries)
    | none => value
  | .union _ discriminator variants, value =>
    match value.asObject? with
    | some entries =>
      let chosen := Entries.getOrNull entries discriminator.name
      let pairs := match chosen.asString? with
        | some option => projectVariant variants option entries
        | none => []
      .object ((discriminator.name, chosen) ::
        pairs.filter fun pair => pair.1 ≠ discriminator.name)
    | none => value
  | .pointer name target, value => follow name target value
  | .bool name, value => leaf (.bool name) value
  | .int name min max, value => leaf (.int name min max) value
  | .fixed name min max precision, value => leaf (.fixed name min max precision) value
  | .enumeration e, value => leaf (.enumeration e) value
  | .enumArray name minLength maxLength e, value =>
    leaf (.enumArray name minLength maxLength e) value

/-- The entries that a list of fields declares, in the order of the fields.  An entry that is
absent counts as null. -/
def projectFields : List Node → Entries Value → Entries Value
  | [], _ => []
  | field :: rest, entries =>
    (field.name, projectNode field (Entries.getOrNull entries field.name)) ::
      projectFields rest entries

/-- The entries that one variant declares; an option without a variant declares none. -/
def projectVariant : List (String × List Node) → String → Entries Value → Entries Value
  | [], _, _ => []
  | (key, fields) :: rest, option, entries =>
    if key = option then projectFields fields entries else projectVariant rest option entries

end

end

/-- Projects a value at the target of a pointer, with `budget` pointers left to follow.  A pointer
that cannot be followed leaves the value as it is, and data that can be written have none. -/
def followProject (leaf : Node → Value → Value) (scope : List Node) :
    (budget : Nat) → ProjectPointer
  | 0, _, _, value => value
  | budget + 1, _, target, value =>
    match resolveTarget scope target with
    | none => value
    | some node => projectNode leaf (followProject leaf scope budget) node value

/-- How the leaves of a value at a pointer are listed. -/
abbrev PointerLeaves := (name target : String) → Value → List (Node × Value)

section

variable (follow : PointerLeaves)

mutual

/-- The leaves that writing a value against a node meets, with the values at them.  Leaves are what
a treatment of leaves is applied to, so assumptions on it need only be made for these. -/
def leavesOf : Node → Value → List (Node × Value)
  | .optional _ inner, value => if value.isNull then [] else leavesOf inner value
  | .array _ _ _ item, value =>
    match value.asArray? with
    | some items => items.flatMap fun element => leavesOf item element
    | none => []
  | .object _ fields, value =>
    match value.asObject? with
    | some entries => fieldLeaves fields entries
    | none => []
  | .union _ discriminator variants, value =>
    match value.asObject? with
    | some entries =>
      match (Entries.getOrNull entries discriminator.name).asString? with
      | some option => variantLeaves variants option entries
      | none => []
    | none => []
  | .pointer name target, value => follow name target value
  | .bool name, value => [(.bool name, value)]
  | .int name min max, value => [(.int name min max, value)]
  | .fixed name min max precision, value => [(.fixed name min max precision, value)]
  | .enumeration e, value => [(.enumeration e, value)]
  | .enumArray name minLength maxLength e, value =>
    [(.enumArray name minLength maxLength e, value)]

/-- The leaves of the entries that a list of fields names. -/
def fieldLeaves : List Node → Entries Value → List (Node × Value)
  | [], _ => []
  | field :: rest, entries =>
    leavesOf field (Entries.getOrNull entries field.name) ++ fieldLeaves rest entries

/-- The leaves of the entries that one variant names. -/
def variantLeaves : List (String × List Node) → String → Entries Value → List (Node × Value)
  | [], _, _ => []
  | (key, fields) :: rest, option, entries =>
    if key = option then fieldLeaves fields entries else variantLeaves rest option entries

end

end

/-- The leaves of a value at the target of a pointer, with `budget` pointers left to follow. -/
def followLeaves (scope : List Node) : (budget : Nat) → PointerLeaves
  | 0, _, _, _ => []
  | budget + 1, _, target, value =>
    match resolveTarget scope target with
    | none => []
    | some node => leavesOf (followLeaves scope budget) node value

/-- The value that reading returns in place of a leaf's value: integers for integers, the number at
the step for numbers with a point, and everything else as it is. -/
def normalLeaf : Node → Value → Value
  | .int .., value =>
    match value.asInt? with
    | some n => .int n
    | none => value
  | .fixed _ _ _ precision, value =>
    match value.asFixed? with
    | some x =>
      let grid := Grid.ofPrecision precision
      .fixed (grid.valueOf (grid.stepsOf x))
    | none => value
  | _, value => value

end Packing

/-- The part of data that a schema's fields declare. -/
def projectData (leaf : Node → Value → Value) (fields : List Node) (data : Value)
    (pointerDepth : Nat) : Value :=
  match data.asObject? with
  | some entries =>
    .object (Packing.projectFields leaf (Packing.followProject leaf fields pointerDepth)
      fields entries)
  | none => data

/-- The normal form of data: what reading returns for it.  Undeclared entries are gone, declared
ones stand in the order of the fields, and numbers are on their grids. -/
def normalData (fields : List Node) (data : Value) (options : CodecOptions) : Value :=
  projectData Packing.normalLeaf fields data options.pointerDepth

/-- The declared part of data, with the values of leaves as they are.  Data with one declared part
are packed alike. -/
def declaredData (fields : List Node) (data : Value) (options : CodecOptions) : Value :=
  projectData (fun _ value => value) fields data options.pointerDepth

/-- The leaves of data with their values. -/
def dataLeaves (fields : List Node) (data : Value) (options : CodecOptions) :
    List (Node × Value) :=
  match data.asObject? with
  | some entries =>
    Packing.fieldLeaves (Packing.followLeaves fields options.pointerDepth) fields entries
  | none => []

namespace Packing

/-! ### Projected entries -/

section

variable {leaf : Node → Value → Value} {follow : ProjectPointer}

theorem projectFields_eq (fields : List Node) (entries : Entries Value) :
    projectFields leaf follow fields entries = fields.map fun field =>
      (field.name, projectNode leaf follow field (Entries.getOrNull entries field.name)) := by
  induction fields with
  | nil => rfl
  | cons field rest ih => rw [projectFields, ih, List.map_cons]

/-- Looking a variant up and projecting it is projecting it where it stands. -/
theorem projectVariant_eq (variants : Entries (List Node)) (option : String)
    (entries : Entries Value) :
    projectVariant leaf follow variants option entries =
      projectFields leaf follow ((Entries.get? variants option).getD []) entries :=
  Entries.search_getD_eq (f := (projectVariant leaf follow · option entries)) rfl
    (fun _ _ _ => by rw [projectVariant]) variants

/-- The names of projected entries are those of the fields. -/
theorem keys_projectFields (fields : List Node) (entries : Entries Value) :
    Entries.keys (projectFields leaf follow fields entries) = fields.map Node.name := by
  rw [projectFields_eq, Entries.keys, List.map_map]
  rfl

/-- With distinct field names, each field finds its own projection. -/
theorem get?_projectFields {fields : List Node} (hnames : (fields.map Node.name).Nodup)
    (entries : Entries Value) {field : Node} (hfield : field ∈ fields) :
    Entries.get? (projectFields leaf follow fields entries) field.name =
      some (projectNode leaf follow field (Entries.getOrNull entries field.name)) := by
  rw [Entries.get?_eq_some_iff (by rwa [keys_projectFields]), projectFields_eq, List.mem_map]
  exact ⟨field, hfield, rfl⟩

/-- Entries in the order of the fields are projected where they stand. -/
theorem projectFields_eq_zipWith {fields : List Node} {entries : Entries Value}
    (hkeys : Entries.keys entries = fields.map Node.name)
    (hnames : (fields.map Node.name).Nodup) :
    projectFields leaf follow fields entries =
      List.zipWith (fun field entry => (field.name, projectNode leaf follow field entry.2))
        fields entries := by
  calc projectFields leaf follow fields entries
      = List.zipWith (fun field value => (field.name, projectNode leaf follow field value))
          fields (fields.map fun field => Entries.getOrNull entries field.name) := by
        rw [projectFields_eq, List.zipWith_map_right, List.zipWith_self]
    _ = _ := by rw [Entries.map_getOrNull hkeys hnames, List.zipWith_map_right]

/-- A union keeps its discriminator and the fields of the chosen variant. -/
theorem projectNode_union_of_string {name : String} {discriminator : Enumeration}
    {variants : Entries (List Node)} {entries : Entries Value} {option : String}
    (h : Entries.getOrNull entries discriminator.name = .string option) :
    projectNode leaf follow (.union name discriminator variants) (.object entries) =
      .object ((discriminator.name, .string option) ::
        (projectFields leaf follow ((Entries.get? variants option).getD []) entries).filter
          fun pair => pair.1 ≠ discriminator.name) := by
  rw [projectNode, Value.asObject?]
  dsimp only
  rw [h, Value.asString?]
  dsimp only
  rw [projectVariant_eq]

end

/-! ### Text and null -/

/-- A text stays as it is, and null is kept apart from everything else.  This much a treatment of
leaves has to keep for options to be found and absent values to stay absent. -/
structure KeepsShape (f : Value → Value) : Prop where
  text : ∀ s : String, f (.string s) = .string s
  isNull : ∀ value : Value, (f value).isNull = value.isNull

theorem keepsShape_id : KeepsShape fun value => value :=
  ⟨fun _ => rfl, fun _ => rfl⟩

theorem keepsShape_normalLeaf (node : Node) : KeepsShape (normalLeaf node) := by
  constructor
  · intro s
    cases node <;> rfl
  · intro value
    cases node with
    | int name min max =>
        rw [normalLeaf]
        cases value with
        | fixed x => cases h : (Value.fixed x).asInt? <;> rfl
        | null | bool | int | string | array | object => rfl
    | fixed name min max precision => cases value <;> rfl
    | bool | enumeration | optional | array | enumArray | object | union | pointer => rfl

/-- Projection keeps texts and null at every node: no container is written from a text or from
null, and an optional field keeps null as it is. -/
theorem keepsShape_projectNode {leaf : Node → Value → Value} {follow : ProjectPointer}
    (hleaf : ∀ node, KeepsShape (leaf node))
    (hfollow : ∀ name target, KeepsShape (follow name target)) (node : Node) :
    KeepsShape (projectNode leaf follow node) := by
  induction node with
  | bool | int | fixed | enumeration | enumArray => exact hleaf _
  | optional name inner ih =>
      constructor
      · intro s
        rw [projectNode, if_neg (by simp [Value.isNull])]
        exact ih.text s
      · intro value
        rw [projectNode]
        split
        · next h => rw [h]; rfl
        · exact ih.isNull value
  | array | object | union => exact ⟨fun _ => rfl, fun value => by cases value <;> rfl⟩
  | pointer name target => exact hfollow name target

theorem keepsShape_followProject {leaf : Node → Value → Value}
    (hleaf : ∀ node, KeepsShape (leaf node)) (scope : List Node) (budget : Nat)
    (name target : String) : KeepsShape (followProject leaf scope budget name target) := by
  induction budget generalizing name target with
  | zero => exact keepsShape_id
  | succ budget ih =>
      cases hnode : resolveTarget scope target with
      | none =>
          have hfollow : followProject leaf scope (budget + 1) name target =
              fun value => value := by
            funext value
            rw [followProject, hnode]
          rw [hfollow]
          exact keepsShape_id
      | some node =>
          have hfollow : followProject leaf scope (budget + 1) name target =
              projectNode leaf (followProject leaf scope budget) node := by
            funext value
            rw [followProject, hnode]
          rw [hfollow]
          exact keepsShape_projectNode hleaf ih node

/-! ### Leaves -/

section

variable {follow : PointerLeaves}

theorem mem_fieldLeaves {found : Node × Value} {fields : List Node} {entries : Entries Value} :
    found ∈ fieldLeaves follow fields entries ↔
      ∃ field ∈ fields, found ∈ leavesOf follow field (Entries.getOrNull entries field.name) := by
  induction fields with
  | nil => simp [fieldLeaves]
  | cons field rest ih => simp [fieldLeaves, ih]

/-- Looking a variant up and listing its leaves is listing them where it stands. -/
theorem variantLeaves_eq (variants : Entries (List Node)) (option : String)
    (entries : Entries Value) :
    variantLeaves follow variants option entries =
      fieldLeaves follow ((Entries.get? variants option).getD []) entries :=
  Entries.search_getD_eq (f := (variantLeaves follow · option entries)) rfl
    (fun _ _ _ => by rw [variantLeaves]) variants

/-- The leaves of a union are those of the chosen variant. -/
theorem leavesOf_union_of_string {name : String} {discriminator : Enumeration}
    {variants : Entries (List Node)} {entries : Entries Value} {option : String}
    (h : Entries.getOrNull entries discriminator.name = .string option) :
    leavesOf follow (.union name discriminator variants) (.object entries) =
      fieldLeaves follow ((Entries.get? variants option).getD []) entries := by
  rw [leavesOf, Value.asObject?]
  dsimp only
  rw [h, Value.asString?]
  dsimp only
  rw [variantLeaves_eq]

end

end Packing

end FieldGrammar
