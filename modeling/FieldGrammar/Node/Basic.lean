import FieldGrammar.Data.Entries

/-!
# The field grammar

A schema is a name with an ordered list of nodes.  Nodes nest according to their kind;
self-reference is only ever expressed by a *pointer*, which names another field of the same
schema in place of containing it.  The nesting of a schema is therefore finite while the data
that it describes may recur.

Every traversal visits the variants of a union in the order of the discriminator's options,
whatever order the variants are stored in: an option without a variant contributes no fields,
and a variant without an option is not visited.  Functions that recurse into a union take the
stored variants and the option and descend where the two meet (`depthAt`, `walkAt`), which
keeps all recursion structural.

## Main definitions

* `Kind` — the ten kinds of nodes, in the order in which tokens number them
* `Enumeration`, `Node`, `Schema`
* `Node.variantsInOrder`, `Node.children` — what a node contains, in visiting order
* `Node.depth` — nesting depth, at least 2 for a container
* `Node.walk` — a node and all its descendants, in pre-order
-/

namespace FieldGrammar

/-! ## Kinds -/

/-- The kind of a node, without its attributes. -/
inductive Kind where
  | bool
  | int
  | fixed
  | enumeration
  | optional
  | array
  | enumArray
  | object
  | union
  | pointer
  deriving DecidableEq, Repr, Inhabited

namespace Kind

/-- Every kind, in the order of tokens. -/
def all : List Kind :=
  [bool, int, fixed, enumeration, optional, array, enumArray, object, union, pointer]

/-- The tag of a kind. -/
def tag : Kind → String
  | bool => "bool"
  | int => "int"
  | fixed => "fixed"
  | enumeration => "enum"
  | optional => "optional"
  | array => "array"
  | enumArray => "enumArray"
  | object => "object"
  | union => "union"
  | pointer => "pointer"

/-- The kind with a tag. -/
def ofTag? (tag : String) : Option Kind :=
  all.find? fun kind => kind.tag == tag

/-- Whether nodes of this kind nest other nodes and so need a level below them. -/
def isContainer : Kind → Bool
  | optional | array | object | union => true
  | _ => false

theorem mem_all (kind : Kind) : kind ∈ all := by
  cases kind <;> simp [all]

/-- A tag names its kind. -/
@[simp] theorem ofTag?_tag (kind : Kind) : ofTag? kind.tag = some kind := by
  cases kind <;> decide

end Kind

/-! ## Nodes and schemas -/

/-- A name with a list of options. -/
structure Enumeration where
  name : String
  options : List String
  deriving DecidableEq, Repr, Inhabited

/-- The position of an option. -/
def Enumeration.indexOf? (e : Enumeration) (option : String) : Option Nat :=
  e.options.idxOf? option

/-- One element of the description of a data shape.  The variants of a union have distinct
names. -/
inductive Node where
  | bool (name : String)
  | int (name : String) (min max : Int64)
  | fixed (name : String) (min max precision : Float)
  | enumeration (options : Enumeration)
  | optional (name : String) (inner : Node)
  | array (name : String) (minLength maxLength : UInt32) (item : Node)
  | enumArray (name : String) (minLength maxLength : UInt32) (options : Enumeration)
  | object (name : String) (fields : List Node)
  | union (name : String) (discriminator : Enumeration) (variants : List (String × List Node))
  | pointer (name target : String)
  deriving Inhabited

/-- A named, ordered list of fields. -/
structure Schema where
  name : String
  fields : List Node
  deriving Inhabited

namespace Node

/-- The name of a field. -/
def name : Node → String
  | bool name | int name .. | fixed name .. | optional name _ | array name .. | enumArray name ..
  | object name _ | union name .. | pointer name _ => name
  | enumeration e => e.name

/-- The kind of a node. -/
def kind : Node → Kind
  | bool _ => .bool
  | int .. => .int
  | fixed .. => .fixed
  | enumeration _ => .enumeration
  | optional .. => .optional
  | array .. => .array
  | enumArray .. => .enumArray
  | object .. => .object
  | union .. => .union
  | pointer .. => .pointer

/-- Whether the node is a pointer. -/
def isPointer : Node → Bool
  | pointer .. => true
  | _ => false

/-- The variants of a union in the order of its options.  An option without a variant has no
fields. -/
def variantsInOrder (discriminator : Enumeration) (variants : Entries (List Node)) :
    List (String × List Node) :=
  discriminator.options.map fun option => (option, (Entries.get? variants option).getD [])

/-- The nodes directly below a node, in visiting order. -/
def children : Node → List Node
  | optional _ inner => [inner]
  | array _ _ _ item => [item]
  | object _ fields => fields
  | union _ discriminator variants =>
    (variantsInOrder discriminator variants).flatMap Prod.snd
  | _ => []

mutual

/-- The nesting depth of a node: 1 for a leaf; for a container one more than its deepest
child, and 2 without children. -/
def depth : Node → Nat
  | optional _ inner => 1 + inner.depth
  | array _ _ _ item => 1 + item.depth
  | object _ fields => 1 + max 1 (depthList fields)
  | union _ discriminator variants =>
    1 + (discriminator.options.map fun option => depthAt variants option).foldl max 1
  | _ => 1

/-- The greatest depth in a list of nodes, 0 if it is empty. -/
def depthList : List Node → Nat
  | [] => 0
  | node :: rest => max node.depth (depthList rest)

/-- The greatest depth among the fields of a variant. -/
def depthAt : List (String × List Node) → String → Nat
  | [], _ => 0
  | (key, fields) :: rest, option => if key = option then depthList fields else depthAt rest option

end

mutual

/-- A node followed by all nodes below it, parents before children. -/
def walk : Node → List Node
  | optional name inner => optional name inner :: inner.walk
  | array name lo hi item => array name lo hi item :: item.walk
  | object name fields => object name fields :: walkList fields
  | union name discriminator variants =>
    union name discriminator variants ::
      discriminator.options.flatMap fun option => walkAt variants option
  | node => [node]

/-- The walks of a list of nodes, one after the other. -/
def walkList : List Node → List Node
  | [] => []
  | node :: rest => node.walk ++ walkList rest

/-- The walks of the fields of a variant. -/
def walkAt : List (String × List Node) → String → List Node
  | [], _ => []
  | (key, fields) :: rest, option => if key = option then walkList fields else walkAt rest option

end

theorem depthList_eq (nodes : List Node) : depthList nodes = (nodes.map depth).foldr max 0 := by
  induction nodes with
  | nil => rfl
  | cons node rest ih => simp [depthList, ih]

/-- Looking a variant up and measuring it is measuring it where it stands. -/
theorem depthAt_eq (variants : Entries (List Node)) (option : String) :
    depthAt variants option = depthList ((Entries.get? variants option).getD []) :=
  Entries.search_getD_eq (f := (depthAt · option)) rfl (fun _ _ _ => by rw [depthAt]) variants

theorem walkList_eq (nodes : List Node) : walkList nodes = nodes.flatMap walk := by
  induction nodes with
  | nil => rfl
  | cons node rest ih => simp [walkList, ih]

/-- Looking a variant up and walking it is walking it where it stands. -/
theorem walkAt_eq (variants : Entries (List Node)) (option : String) :
    walkAt variants option = walkList ((Entries.get? variants option).getD []) :=
  Entries.search_getD_eq (f := (walkAt · option)) rfl (fun _ _ _ => by rw [walkAt]) variants

/-- The walk of a node is the node and then the walks of its children, in order. -/
theorem walk_eq (node : Node) : node.walk = node :: node.children.flatMap walk := by
  cases node <;>
    simp [walk, children, walkList_eq, variantsInOrder, walkAt_eq, List.flatMap_map,
      List.flatMap_assoc]

end Node

namespace Schema

/-- The depth of the deepest field, 0 without fields. -/
def depth (schema : Schema) : Nat :=
  Node.depthList schema.fields

end Schema

end FieldGrammar
