import FieldGrammar.Error
import FieldGrammar.Node.Basic

/-!
# The schema of schemas

A packed schema token holds data: a description of the schema, packed against a fixed
*meta-schema* whose fields describe schemas.  A node is described by a union over the kinds,
and each step of nesting goes one level down.  The levels are unrolled up to a bound, and the
innermost level offers leaf kinds only, so the meta-schema contains no pointer and describes
exactly the trees of bounded depth.

The top level is

    meta:    { version }
    fields:  [node, ...]
    strings: [byte, ...]

where the octets of `strings` write the string table, and every name and option elsewhere is an
index into it.

`MetaSchema.nodeUnion` recurses on the number of levels *below* the one it describes.
-/

namespace FieldGrammar

namespace MetaSchema

/-- The version that every token carries. -/
def version : Int64 := 1

/-- The greatest supported bound on depth. -/
def maxDepth : Nat := 7

/-- The name of every discriminator. -/
def kindName : String := "kind"

/-- The resolution of fixed-point attributes. -/
def resolution : Float := 1e-4

/-- The greatest magnitude of a fixed-point bound. -/
def fixedLimit : Float := 1e9

/-- The greatest precision. -/
def maxPrecision : Float := 1e6

/-- An index into the string table. -/
def index (name : String) : Node :=
  .int name 0 4095

/-- The indices of a list of options. -/
def indexList (name : String) : Node :=
  .array name 1 256 (index "option")

/-- A bound on a length. -/
def length (name : String) : Node :=
  .int name 0 65535

/-- A bound on an integer. -/
def intBound (name : String) : Node :=
  .int name (-2147483648) 2147483647

/-- A bound on a fixed-point number. -/
def fixedBound (name : String) : Node :=
  .fixed name (-fixedLimit) fixedLimit resolution

/-- A precision. -/
def precision : Node :=
  .fixed "precision" resolution maxPrecision resolution

/-- The attributes of a kind other than nested nodes. -/
def attributes : Kind → List Node
  | .bool | .optional | .object => [index "name"]
  | .int => [index "name", intBound "min", intBound "max"]
  | .fixed => [index "name", fixedBound "min", fixedBound "max", precision]
  | .enumeration => [index "name", indexList "options"]
  | .array => [index "name", length "minLength", length "maxLength"]
  | .enumArray =>
    [index "name", length "minLength", length "maxLength", index "enumName", indexList "options"]
  | .union => [index "name", index "discriminatorName", indexList "options"]
  | .pointer => [index "name", index "targetName"]

/-- A list of nodes, each described by `field`. -/
def nodeList (name : String) (field : Node) : Node :=
  .array name 0 255 field

/-- The nested nodes of a kind, each described by `nested` under a name of its own. -/
def contents (nested : String → Node) : Kind → List Node
  | .optional => [nested "inner"]
  | .array => [nested "item"]
  | .object => [nodeList "fields" (nested "field")]
  | .union => [.array "variants" 1 256 (nodeList "variant" (nested "field"))]
  | _ => []

/-- The union over some kinds, each with its fields. -/
def unionOver (name : String) (kinds : List Kind) (fields : Kind → List Node) : Node :=
  .union name ⟨kindName, kinds.map Kind.tag⟩ (kinds.map fun kind => (kind.tag, fields kind))

/-- The kinds that need no level below them. -/
def leafKinds : List Kind :=
  Kind.all.filter fun kind => !kind.isContainer

/-- The union that describes a node with a number of levels below it. -/
def nodeUnion : (levels : Nat) → (name : String) → Node
  | 0, name => unionOver name leafKinds attributes
  | levels + 1, name =>
    unionOver name Kind.all fun kind => attributes kind ++ contents (nodeUnion levels) kind

/-- The meta-schema of trees up to a depth.  A bound of zero describes the same trees as a
bound of one. -/
def fields (depth : Nat) : List Node :=
  [ .object "meta" [.int "version" 0 255],
    nodeList "fields" (nodeUnion (depth - 1) "field"),
    .array "strings" 0 65535 (.int "byte" 0 255) ]

/-- The meta-schema of a supported bound. -/
def ofDepth (depth : Nat) : Except Error (List Node) :=
  if maxDepth < depth then .error (.outOfBounds "max_depth" (.depth depth maxDepth))
  else .ok (fields depth)

end MetaSchema

end FieldGrammar
