import FieldGrammar.Draft.Basic
import FieldGrammar.Error
import FieldGrammar.Interchange.Record
import FieldGrammar.Json.Parser
import FieldGrammar.Json.Printer

/-!
# Drafts and JSON

A draft is written as an object with its identifier, its name, its kind's tag under `type` and
the attributes of its kind; an unset attribute is `null`.  In reading, an attribute that is absent
or `null` is unset, and the tag may be given by the number of the kind.  The fields of an object
and the variants of a union are never unset, and a draft is never written as an array.
-/

namespace FieldGrammar

namespace Draft

/-- The attributes of a kind other than identifier and name, in the order in which they are
written. -/
def attributes : Kind → List String
  | .bool => []
  | .int => ["min", "max"]
  | .fixed => ["min", "max", "precision"]
  | .enumeration => ["options"]
  | .optional => ["inner"]
  | .array => ["minLength", "maxLength", "item"]
  | .enumArray => ["minLength", "maxLength", "enumName", "options"]
  | .object => ["fields"]
  | .union => ["discriminatorName", "options", "variants"]
  | .pointer => ["targetName"]

/-- The value of an attribute, `null` if it is unset. -/
def orNull {α : Type} (write : α → Json) : Option α → Json
  | some a => write a
  | none => .null

/-- A list of options. -/
def optionsJson (options : List String) : Json :=
  .array (options.map .string)

/-- A length. -/
def lengthJson (n : UInt32) : Json :=
  .int n.toNat

/-- An object of identifier, name, kind and attributes. -/
def taggedJson (id name : String) (kind : Kind) (rest : List (String × Json)) : Json :=
  .object (("id", .string id) :: ("name", .string name) :: ("type", .string kind.tag) :: rest)

mutual

/-- The JSON value of a draft. -/
def toJson : Draft → Json
  | bool id name => taggedJson id name .bool []
  | int id name min max =>
    taggedJson id name .int
      [("min", orNull (.int ·.toInt) min), ("max", orNull (.int ·.toInt) max)]
  | fixed id name min max precision =>
    taggedJson id name .fixed
      [("min", orNull .real min), ("max", orNull .real max), ("precision", orNull .real precision)]
  | enumeration id name options =>
    taggedJson id name .enumeration [("options", orNull optionsJson options)]
  | optional id name none => taggedJson id name .optional [("inner", .null)]
  | optional id name (some inner) => taggedJson id name .optional [("inner", toJson inner)]
  | array id name minLength maxLength none =>
    taggedJson id name .array
      [("minLength", orNull lengthJson minLength), ("maxLength", orNull lengthJson maxLength),
        ("item", .null)]
  | array id name minLength maxLength (some item) =>
    taggedJson id name .array
      [("minLength", orNull lengthJson minLength), ("maxLength", orNull lengthJson maxLength),
        ("item", toJson item)]
  | enumArray id name minLength maxLength enumName options =>
    taggedJson id name .enumArray
      [("minLength", orNull lengthJson minLength), ("maxLength", orNull lengthJson maxLength),
        ("enumName", orNull .string enumName), ("options", orNull optionsJson options)]
  | object id name fields =>
    taggedJson id name .object [("fields", .array (toJsonList fields))]
  | union id name discriminatorName options variants =>
    taggedJson id name .union
      [("discriminatorName", orNull .string discriminatorName),
        ("options", orNull optionsJson options), ("variants", .object (toJsonVariants variants))]
  | pointer id name target =>
    taggedJson id name .pointer [("targetName", orNull .string target)]

/-- The JSON values of a list of drafts. -/
def toJsonList : List Draft → List Json
  | [] => []
  | draft :: rest => toJson draft :: toJsonList rest

/-- The members of an object of variants. -/
def toJsonVariants : List (String × List Draft) → List (String × Json)
  | [] => []
  | (key, fields) :: rest => (key, .array (toJsonList fields)) :: toJsonVariants rest

end

/-- An attribute that may be unset: absent and `null` are unset, and any other value has to be
of the right form. -/
def unsettable? {α : Type} (read : Json → Option α) : Option Json → Option (Option α)
  | none | some .null => some none
  | some value => (read value).map some

/-- The draft that a JSON value writes, with a number of levels to descend. -/
def ofJson? : (levels : Nat) → Json → Option Draft
  | 0, _ => none
  | levels + 1, json => do
    let members ← json.asObject?
    let (kind, record) ← json.taggedRecord? true attributes
    guard (Json.eachOnce members ["id", "name"])
    let id ← (← record "id").asString?
    let name ← (← record "name").asString?
    match kind with
    | .bool => return bool id name
    | .int =>
      return int id name (← unsettable? Json.asInt64? (record "min"))
        (← unsettable? Json.asInt64? (record "max"))
    | .fixed =>
      return fixed id name (← unsettable? Json.asFloat? (record "min"))
        (← unsettable? Json.asFloat? (record "max"))
        (← unsettable? Json.asFloat? (record "precision"))
    | .enumeration =>
      return enumeration id name (← unsettable? Json.asStrings? (record "options"))
    | .optional => return optional id name (← unsettable? (ofJson? levels) (record "inner"))
    | .array =>
      return array id name (← unsettable? Json.asUInt32? (record "minLength"))
        (← unsettable? Json.asUInt32? (record "maxLength"))
        (← unsettable? (ofJson? levels) (record "item"))
    | .enumArray =>
      return enumArray id name (← unsettable? Json.asUInt32? (record "minLength"))
        (← unsettable? Json.asUInt32? (record "maxLength"))
        (← unsettable? Json.asString? (record "enumName"))
        (← unsettable? Json.asStrings? (record "options"))
    | .object =>
      return object id name (← (← (← record "fields").asArray?).mapM (ofJson? levels))
    | .union =>
      let variants ← (← (← record "variants").asObject?).mapM fun (key, value) => do
        return (key, ← (← value.asArray?).mapM (ofJson? levels))
      return union id name (← unsettable? Json.asString? (record "discriminatorName"))
        (← unsettable? Json.asStrings? (record "options")) (Entries.ofList variants)
    | .pointer => return pointer id name (← unsettable? Json.asString? (record "targetName"))

/-- The compact JSON text of a draft. -/
def toJsonText (draft : Draft) : String :=
  draft.toJson.toText

/-- The draft that a JSON text writes. -/
def ofJsonText (text : String) : Except Error Draft :=
  match Json.ofText? text with
  | none => .error (.json .malformed)
  | some json =>
    if !json.readableWithin Json.maxNesting then .error (.json .malformed)
    else match ofJson? Json.maxNesting json with
      | some draft => .ok draft
      | none => .error (.json .mismatched)

end Draft

end FieldGrammar
