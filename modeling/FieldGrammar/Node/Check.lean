import FieldGrammar.Data.Entries
import FieldGrammar.Error
import FieldGrammar.Node.Basic

/-!
# Valid nodes

`Node.check` tests the attributes of one node, `Node.validate` those of a node and of
everything below it, in pre-order, and `Schema.validate` a whole schema, whose field names
must differ as those of an object must.  The first violation met is the one reported.

| Kind | Condition |
|---|---|
| int | `min ≤ max` |
| fixed | bounds and precision finite, `min ≤ max`, precision positive |
| enumeration, discriminator | options present and distinct |
| array | `minLength ≤ maxLength` |
| object | field names distinct |
| union | the variants are exactly those of the options; field names distinct in each |
-/

namespace FieldGrammar

/-- Refuses a field list in which a name occurs twice. -/
def checkDistinctNames (owner : String) (fields : List Node) : Except Error Unit :=
  match firstRepeated? (fields.map Node.name) with
  | some name => .error (.construction owner (.repeatedField name))
  | none => .ok ()

/-- Refuses bounds on a length that exclude each other. -/
def checkLengths (name : String) (minLength maxLength : UInt32) : Except Error Unit :=
  if maxLength < minLength then .error (.construction name (.lengthBounds minLength maxLength))
  else .ok ()

namespace Enumeration

/-- Refuses an enumeration without options or with a repeated one. -/
def validate (e : Enumeration) : Except Error Unit :=
  if e.options.isEmpty then .error (.construction e.name .noOptions)
  else match firstRepeated? e.options with
    | some option => .error (.construction e.name (.repeatedOption option))
    | none => .ok ()

end Enumeration

/-- Whether the variants are exactly those of the options. -/
def variantsMatch (discriminator : Enumeration) (variants : Entries (List Node)) : Bool :=
  variants.length == discriminator.options.length &&
    discriminator.options.all (Entries.contains variants)

/-- Refuses the first variant in which a field name occurs twice. -/
def checkVariantNames (owner : String) : Entries (List Node) → Except Error Unit
  | [] => .ok ()
  | (_, fields) :: rest => do
    checkDistinctNames owner fields
    checkVariantNames owner rest

namespace Node

/-- Tests the attributes of one node, without descending. -/
def check : Node → Except Error Unit
  | int name min max =>
    if max < min then .error (.construction name (.intBounds min max)) else .ok ()
  | fixed name min max precision =>
    if !(min.isFinite && max.isFinite && precision.isFinite) then
      .error (.construction name .notFinite)
    else if max < min then .error (.construction name (.fixedBounds min max))
    else if precision ≤ 0.0 then .error (.construction name .precision)
    else .ok ()
  | enumeration e => e.validate
  | array name minLength maxLength _ => checkLengths name minLength maxLength
  | enumArray name minLength maxLength e => do
    checkLengths name minLength maxLength
    e.validate
  | object name fields => checkDistinctNames name fields
  | union name discriminator variants => do
    discriminator.validate
    if variantsMatch discriminator variants then checkVariantNames name variants
    else .error (.construction name .variantsDiffer)
  | bool _ | optional .. | pointer .. => .ok ()

mutual

/-- Tests a node and everything below it. -/
def validate : Node → Except Error Unit
  | optional name inner => do
    check (optional name inner)
    inner.validate
  | array name lo hi item => do
    check (array name lo hi item)
    item.validate
  | object name fields => do
    check (object name fields)
    validateList fields
  | union name discriminator variants => do
    check (union name discriminator variants)
    discriminator.options.forM fun option => validateAt variants option
  | node => check node

/-- Tests the nodes of a list, in order. -/
def validateList : List Node → Except Error Unit
  | [] => .ok ()
  | node :: rest => do
    node.validate
    validateList rest

/-- Tests the fields of a variant. -/
def validateAt : List (String × List Node) → String → Except Error Unit
  | [], _ => .ok ()
  | (key, fields) :: rest, option =>
    if key = option then validateList fields else validateAt rest option

end

end Node

/-- Tests a schema: its field names and every node. -/
def Schema.validate (schema : Schema) : Except Error Unit := do
  checkDistinctNames schema.name schema.fields
  Node.validateList schema.fields

end FieldGrammar
