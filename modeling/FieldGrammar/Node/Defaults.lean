import FieldGrammar.Data.Value
import FieldGrammar.Node.Basic

/-!
# Default values

The canonical initial value of every node: it seeds a fresh form, and it is what a caller falls
back on when a data token does not decode.

| Kind | Default |
|---|---|
| bool | `false` |
| int, fixed | `min` |
| enumeration | the first option |
| optional, pointer | null |
| array, enumeration array | empty |
| object | the defaults of its fields, by name |
| union | the first option, and the defaults of its variant's fields |

A pointer's default is null because deriving it would mean entering its target, which may come
back to the pointer without end.
-/

namespace FieldGrammar

/-- The first option as a value, null if there is none. -/
def Enumeration.firstOption (e : Enumeration) : Value :=
  match e.options with
  | [] => .null
  | option :: _ => .string option

namespace Node

mutual

/-- The default value of a node. -/
def default : Node → Value
  | bool _ => .bool false
  | int _ min _ => .int min
  | fixed _ min _ _ => .fixed min
  | enumeration e => e.firstOption
  | optional .. | pointer .. => .null
  | array .. | enumArray .. => .array []
  | object _ fields => .object (Entries.ofList (defaultPairs fields))
  | union _ discriminator variants =>
    .object (Entries.insertAll [(discriminator.name, discriminator.firstOption)]
      (match discriminator.options with
        | [] => []
        | option :: _ => defaultPairsAt variants option))

/-- The names and defaults of a list of fields. -/
def defaultPairs : List Node → List (String × Value)
  | [] => []
  | field :: rest => (field.name, field.default) :: defaultPairs rest

/-- The names and defaults of the fields of a variant. -/
def defaultPairsAt : List (String × List Node) → String → List (String × Value)
  | [], _ => []
  | (key, fields) :: rest, option =>
    if key = option then defaultPairs fields else defaultPairsAt rest option

end

theorem defaultPairs_eq (fields : List Node) :
    defaultPairs fields = fields.map fun field => (field.name, field.default) := by
  induction fields with
  | nil => rfl
  | cons field rest ih => simp [defaultPairs, ih]

/-- Looking a variant up and deriving its defaults is deriving them where it stands. -/
theorem defaultPairsAt_eq (variants : Entries (List Node)) (option : String) :
    defaultPairsAt variants option = defaultPairs ((Entries.get? variants option).getD []) :=
  Entries.search_getD_eq (f := (defaultPairsAt · option)) rfl
    (fun _ _ _ => by rw [defaultPairsAt]) variants

/-- The value that a field takes when it is switched on: an optional field takes the default of
what it holds. -/
def defaultWhenPresent : Node → Value
  | optional _ inner => inner.default
  | node => node.default

end Node

/-- The defaults of a list of fields, by name. -/
def defaultObject (fields : List Node) : Entries Value :=
  Entries.ofList (Node.defaultPairs fields)

end FieldGrammar
