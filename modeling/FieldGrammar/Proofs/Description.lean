import Mathlib
import FieldGrammar.Proofs.Interning
import FieldGrammar.Proofs.Trees

/-!
# Descriptions of schemas

The description of a schema is a tree of the same shape as the schema, with indices in place of
names.  Given the indices it can be written down without a string table (`Describe.ofNode`);
describing a schema is interning its strings in the order of the walk, checking the fixed-point
attributes, and writing that tree with the indices of the complete table.

## Main definitions

* `Describe.ofNode`, `Describe.ofSchema` — the description, given the indices
* `Node.ownStrings`, `schemaStrings` — the strings of a node and of a schema, in order
* `Node.OnGrid` — the fixed-point attributes are numbers of the grid of tokens

## Main statements

* `Describe.interns_node` — describing a node
* `Describe.schema_eq_ok_iff` — describing a schema
-/

namespace FieldGrammar

/-- The grid of fixed-point attributes in tokens. -/
abbrev MetaSchema.grid : Grid :=
  Grid.ofPrecision resolution

/-- The number is the one at its step number.  Attributes that are not would come back as others
from a token, so describing refuses them. -/
def Grid.Reproduces (grid : Grid) (x : Float) : Prop :=
  (grid.valueOf (grid.stepsOf x) == x) = true

namespace Describe

section

variable (indexOf : String → Value)

/-- The options of an enumeration, given the indices. -/
def ofOptions (e : Enumeration) : Value :=
  .array (e.options.map indexOf)

mutual

/-- The description of a node, given the indices: an object of its kind, its attributes and what it
nests.  The indices are a function of the strings, so that no table has to be carried along. -/
def ofNode : Node → Value
  | .bool name => object .bool (indexOf name) []
  | .int name min max => object .int (indexOf name) [("min", .int min), ("max", .int max)]
  | .fixed name min max precision =>
    object .fixed (indexOf name)
      [("min", .fixed min), ("max", .fixed max), ("precision", .fixed precision)]
  | .enumeration e => object .enumeration (indexOf e.name) [("options", ofOptions indexOf e)]
  | .optional name inner => object .optional (indexOf name) [("inner", ofNode inner)]
  | .array name minLength maxLength item =>
    object .array (indexOf name)
      [("minLength", length minLength), ("maxLength", length maxLength), ("item", ofNode item)]
  | .enumArray name minLength maxLength e =>
    object .enumArray (indexOf name)
      [("minLength", length minLength), ("maxLength", length maxLength),
        ("enumName", indexOf e.name), ("options", ofOptions indexOf e)]
  | .object name fields => object .object (indexOf name) [("fields", .array (ofNodes fields))]
  | .union name discriminator variants =>
    object .union (indexOf name)
      [("discriminatorName", indexOf discriminator.name),
        ("options", ofOptions indexOf discriminator),
        ("variants", .array (discriminator.options.map fun option => ofVariant variants option))]
  | .pointer name target => object .pointer (indexOf name) [("targetName", indexOf target)]

/-- The descriptions of a list of nodes, given the indices. -/
def ofNodes : List Node → List Value
  | [] => []
  | field :: rest => ofNode field :: ofNodes rest

/-- The description of the fields of a variant, given the indices. -/
def ofVariant : List (String × List Node) → String → Value
  | [], _ => .array []
  | (key, fields) :: rest, option =>
    if key = option then .array (ofNodes fields) else ofVariant rest option

end

theorem ofNodes_eq (fields : List Node) : ofNodes indexOf fields = fields.map (ofNode indexOf) := by
  induction fields with
  | nil => rfl
  | cons field rest ih => rw [ofNodes, ih, List.map_cons]

/-- Looking a variant up and describing it is describing it where it stands. -/
theorem ofVariant_eq (variants : Entries (List Node)) (option : String) :
    ofVariant indexOf variants option =
      .array (((Entries.get? variants option).getD []).map (ofNode indexOf)) :=
  Entries.search_getD_eq (f := (ofVariant indexOf · option))
    (g := fun fields => .array (fields.map (ofNode indexOf))) rfl
    (fun _ _ _ => by rw [ofVariant, ofNodes_eq]) variants

end

end Describe

namespace Node

/-! ### Strings and grids -/

/-- The strings that a node has besides those of the nodes below it, in the order in which they are
described.  Along the walk they are the strings of the schema. -/
def ownStrings : Node → List String
  | bool name | int name .. | fixed name .. | optional name _ | array name .. | object name _ =>
    [name]
  | enumeration e => e.name :: e.options
  | enumArray name _ _ e => name :: e.name :: e.options
  | union name discriminator _ => name :: discriminator.name :: discriminator.options
  | pointer name target => [name, target]

/-- The fixed-point attributes of a node are numbers that the grid of tokens gives back. -/
def OnGrid : Node → Prop
  | fixed _ min max precision =>
    MetaSchema.grid.Reproduces min ∧ MetaSchema.grid.Reproduces max ∧
      MetaSchema.grid.Reproduces precision
  | _ => True

end Node

/-- The strings of a schema, in the order in which they are described: the name of the schema, and
then those of each node of the walk. -/
def schemaStrings (name : String) (fields : List Node) : List String :=
  name :: (Node.walkList fields).flatMap Node.ownStrings

namespace Describe

/-! ### Describing -/

theorem fixedAttribute_eq_ok_iff {field : String} {x : Float} {value : Value} :
    fixedAttribute field x = .ok value ↔ MetaSchema.grid.Reproduces x ∧ value = .fixed x := by
  rw [fixedAttribute, Grid.Reproduces]
  split
  · next h =>
    rw [Except.ok.injEq, eq_comm]
    exact (and_iff_right h).symm
  · next h =>
    simp only [reduceCtorEq, false_iff, not_and]
    exact fun hreproduces => absurd hreproduces h

theorem interns_options (e : Enumeration) :
    Interns (options e) e.options True fun f => ofOptions f e := by
  have hmapM := Interns.mapM fun s (_ : s ∈ e.options) => interns_index s
  exact (hmapM.map Value.array).of_iff (List.flatMap_singleton' e.options) (by simp)

/-- What describing a node does, when it is known of every node of a list. -/
def DescribesNode (n : Node) : Prop :=
  Interns (node n) (n.walk.flatMap Node.ownStrings) (∀ m ∈ n.walk, m.OnGrid)
    fun f => ofNode f n

theorem interns_nodes {fields : List Node} (h : ∀ field ∈ fields, DescribesNode field) :
    Interns (nodes fields) ((Node.walkList fields).flatMap Node.ownStrings)
      (∀ m ∈ Node.walkList fields, m.OnGrid) fun f => ofNodes f fields := by
  induction fields with
  | nil =>
      rw [nodes]
      exact (Interns.pure []).of_iff rfl (by simp [Node.walkList])
  | cons field rest ih =>
      obtain ⟨hfield, hrest⟩ := List.forall_mem_cons.1 h
      rw [nodes, Node.walkList, List.flatMap_append, List.forall_mem_append]
      exact hfield.bind fun first => (ih hrest).map (first :: ·)

theorem interns_variant {variants : List (String × List Node)}
    (h : ∀ entry ∈ variants, ∀ field ∈ entry.2, DescribesNode field) (option : String) :
    Interns (variant variants option)
      ((Node.walkAt variants option).flatMap Node.ownStrings)
      (∀ m ∈ Node.walkAt variants option, m.OnGrid) fun f => ofVariant f variants option := by
  induction variants with
  | nil =>
      rw [variant]
      exact (Interns.pure (Value.array [])).of_iff rfl (by simp [Node.walkAt])
  | cons entry rest ih =>
      obtain ⟨key, fields⟩ := entry
      obtain ⟨hfields, hrest⟩ := List.forall_mem_cons.1 h
      simp only [variant, Node.walkAt, ofVariant]
      split
      · exact (interns_nodes hfields).map Value.array
      · exact ih hrest

/-- **Describing a node** interns the strings of its walk, checks the fixed-point attributes of
its walk, and returns its description. -/
theorem interns_node (n : Node) : DescribesNode n := by
  induction n with
  -- Each kind interns its own strings in the order of `ownStrings`, and then those of what it
  -- nests.
  | bool name =>
      exact ((interns_index name).map fun i => object .bool i []).of_iff rfl
        (by simp [Node.walk, Node.OnGrid])
  | int name min max =>
      refine ((interns_index name).map fun i => object .int i [("min", .int min),
        ("max", .int max)]).of_iff rfl ?_
      simp [Node.walk, Node.OnGrid]
  | fixed name min max precision =>
      refine ((interns_index name).bind fun i =>
        (Interns.lift fun _ => fixedAttribute_eq_ok_iff).bind fun lo =>
        (Interns.lift fun _ => fixedAttribute_eq_ok_iff).bind fun hi =>
        (Interns.lift fun _ => fixedAttribute_eq_ok_iff).map fun step =>
          object .fixed i [("min", lo), ("max", hi), ("precision", step)]).of_iff rfl ?_
      simp [Node.walk, Node.OnGrid]
  | enumeration e =>
      refine ((interns_index e.name).bind fun i => (interns_options e).map fun os =>
        object .enumeration i [("options", os)]).of_iff ?_ ?_
      · simp [Node.walk, Node.ownStrings]
      · simp [Node.walk, Node.OnGrid]
  | optional name inner ih =>
      refine ((interns_index name).bind fun i => ih.map fun v =>
        object .optional i [("inner", v)]).of_iff rfl ?_
      simp [Node.walk, Node.OnGrid]
  | array name minLength maxLength item ih =>
      refine ((interns_index name).bind fun i => ih.map fun v =>
        object .array i [("minLength", length minLength), ("maxLength", length maxLength),
          ("item", v)]).of_iff rfl ?_
      simp [Node.walk, Node.OnGrid]
  | enumArray name minLength maxLength e =>
      refine ((interns_index name).bind fun i => (interns_index e.name).bind fun enumName =>
        (interns_options e).map fun os => object .enumArray i
          [("minLength", length minLength), ("maxLength", length maxLength),
            ("enumName", enumName), ("options", os)]).of_iff ?_ ?_
      · simp [Node.walk, Node.ownStrings]
      · simp [Node.walk, Node.OnGrid]
  | object name fields ih =>
      refine ((interns_index name).bind fun i => (interns_nodes ih).map fun vs =>
        object .object i [("fields", .array vs)]).of_iff rfl ?_
      simp [Node.walk, Node.OnGrid]
  | union name discriminator variants ih =>
      -- The lists of fields are described option by option, as the walk visits them.
      have hlists := Interns.mapM fun option (_ : option ∈ discriminator.options) =>
        interns_variant ih option
      refine ((interns_index name).bind fun i =>
        (interns_index discriminator.name).bind fun discriminatorName =>
        (interns_options discriminator).bind fun indices =>
        hlists.map fun lists => object .union i
          [("discriminatorName", discriminatorName), ("options", indices),
            ("variants", .array lists)]).of_iff ?_ ?_
      · simp [Node.walk, Node.ownStrings, List.flatMap_assoc]
      · simp only [Node.walk, List.forall_mem_cons, Node.OnGrid, true_and, List.mem_flatMap]
        constructor
        · rintro h m ⟨option, hoption, hm⟩
          exact h option hoption m hm
        · intro h option hoption m hm
          exact h m ⟨option, hoption, hm⟩
  | pointer name target =>
      refine ((interns_index name).bind fun i => (interns_index target).map fun t =>
        object .pointer i [("targetName", t)]).of_iff rfl ?_
      simp [Node.walk, Node.OnGrid]

/-! ### Whole schemas -/

/-- The description of a schema with a complete table. -/
def ofSchema (table : StringTable) (fields : List Node) : Value :=
  .object
    [ ("meta", .object [("version", .int MetaSchema.version)]),
      ("fields", .array (fields.map (ofNode table.indexValue))),
      ("strings", .array (table.toBytes.map fun byte => .int (Int64.ofInt byte.toNat))) ]

/-- The table of a schema, complete: what is left when describing has interned its last string. -/
def tableOf (name : String) (fields : List Node) : StringTable :=
  StringTable.empty.addAll (schemaStrings name fields)

/-- **Describing a schema** succeeds if no string contains the separator and the fixed-point
attributes are on the grid of tokens. -/
theorem schema_eq_ok_iff {name : String} {fields : List Node} {found : Value × StringTable} :
    schema name fields = .ok found ↔
      (∀ s ∈ schemaStrings name fields, StringTable.separator ∉ s.toList) ∧
        (∀ m ∈ Node.walkList fields, m.OnGrid) ∧
        found = (ofSchema (tableOf name fields) fields, tableOf name fields) := by
  have hinterns := ((interns_index name).bind fun _ =>
    interns_nodes fun field (_ : field ∈ fields) => interns_node field)
  have hrun : schema name fields =
      ((index name >>= fun _ => nodes fields).run StringTable.empty >>= fun found => .ok
        (.object
          [ ("meta", .object [("version", .int MetaSchema.version)]),
            ("fields", .array found.1),
            ("strings", .array
              (found.2.toBytes.map fun byte => .int (Int64.ofInt byte.toNat))) ],
          found.2)) := by
    rw [StateT.run_bind, bind_assoc]
    rfl
  rw [hrun, bind_eq_ok_iff]
  constructor
  · rintro ⟨⟨described, table⟩, hdescribed, hfound⟩
    obtain ⟨hadmits, ⟨-, hgrid⟩, rfl, rfl⟩ := (hinterns.run_eq_ok_iff _ _ _).1 hdescribed
    cases hfound
    refine ⟨StringTable.admits_empty.1 hadmits, hgrid, ?_⟩
    rw [ofSchema, ← ofNodes_eq]
    rfl
  · rintro ⟨hstrings, hgrid, rfl⟩
    refine ⟨(_, _), (hinterns.run_eq_ok_iff _ _ _).2
      ⟨StringTable.admits_empty.2 hstrings, ⟨trivial, hgrid⟩, rfl, rfl⟩, ?_⟩
    rw [ofSchema, ← ofNodes_eq]
    rfl

end Describe

end FieldGrammar
