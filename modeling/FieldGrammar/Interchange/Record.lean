import FieldGrammar.Json.Basic
import FieldGrammar.Node.Basic

/-!
# Records in JSON

A structure with named attributes is read from an object that has each attribute once at most;
names that the structure does not know are ignored.  Where its form allows, it may also be
written as an array of the attributes in their order.  A `Json.Record` is the common view of
both: a function from attribute names to values.

A structure that comes in kinds carries the kind's tag besides: under the name `type` in an
object, in front in an array.  Inside another structure the tag may also be given by the number
of the kind.

## Main definitions

* `Json.Record`
* `Json.record?` — a record without a tag
* `Json.taggedRecord?` — a kind and the record of its attributes
-/

namespace FieldGrammar

namespace Json

/-- The attributes of a structure by name. -/
abbrev Record := String → Option Json

/-- The value of a name among the members of an object. -/
def lookup (members : List (String × Json)) (name : String) : Option Json :=
  (members.find? fun (key, _) => key == name).map Prod.snd

/-- Whether no name of a list occurs more than once among the members. -/
def eachOnce (members : List (String × Json)) (names : List String) : Bool :=
  names.all fun name => (members.filter fun (key, _) => key == name).length ≤ 1

/-- The record of values in the order of their names. -/
def positional (names : List String) (values : List Json) : Record := fun name =>
  ((names.zip values).find? fun (key, _) => key == name).map Prod.snd

/-- The record of a structure with some required attributes and further ones that may be left
out at the end. -/
def record? (required optional : List String) : Json → Option Record
  | .object members =>
    if eachOnce members (required ++ optional) then some (lookup members) else none
  | .array values =>
    if required.length ≤ values.length ∧ values.length ≤ (required ++ optional).length then
      some (positional (required ++ optional) values)
    else none
  | _ => none

/-- The kind that a tag names.  A number is accepted in place of the name only where `numbered`
says so. -/
def kind? (numbered : Bool) : Json → Option Kind
  | .string tag => Kind.ofTag? tag
  | .int n => if numbered ∧ 0 ≤ n then Kind.all[n.toNat]? else none
  | _ => none

/-- The kind of a structure and the record of its attributes, whose names depend on the kind. -/
def taggedRecord? (numbered : Bool) (attributes : Kind → List String) :
    Json → Option (Kind × Record)
  | .object members => do
    let kind ← kind? numbered (← lookup members "type")
    guard (eachOnce members ("type" :: attributes kind))
    return (kind, lookup members)
  | .array (tag :: values) => do
    let kind ← kind? numbered tag
    guard (values.length = (attributes kind).length)
    return (kind, positional (attributes kind) values)
  | _ => none

end Json

end FieldGrammar
