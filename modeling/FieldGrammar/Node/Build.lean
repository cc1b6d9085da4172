import FieldGrammar.Node.Check

/-!
# Building nodes

The constructors that callers use: each tests the attributes of the node it makes, and none
looks below it, so a tree built from the leaves up by these functions is valid throughout.
Pointers are not resolved here; their targets may not exist yet while a schema is being put
together.
-/

namespace FieldGrammar

/-- An enumeration with options that are present and distinct. -/
def Enumeration.make (name : String) (options : List String) : Except Error Enumeration := do
  let e : Enumeration := ⟨name, options⟩
  e.validate
  return e

namespace Node

/-- The node itself, if its attributes are accepted. -/
def checked (node : Node) : Except Error Node := do
  node.check
  return node

/-- Takes the variants of a list of options, one after the other, out of those that are given.  An
option that finds none gets no fields. -/
def takeVariants : (given : Entries (List Node)) → List String → List (String × List Node)
  | _, [] => []
  | given, option :: rest =>
    (option, (Entries.get? given option).getD []) :: takeVariants (Entries.remove given option) rest

namespace Build

/-- A truth value. -/
def bool (name : String) : Node :=
  .bool name

/-- An integer with inclusive bounds. -/
def int (name : String) (min max : Int64) : Except Error Node :=
  checked (.int name min max)

/-- A number between `min` and `max` in steps of `precision`. -/
def fixed (name : String) (min max precision : Float) : Except Error Node :=
  checked (.fixed name min max precision)

/-- One of a list of options. -/
def enumeration (name : String) (options : List String) : Except Error Node :=
  return .enumeration (← Enumeration.make name options)

/-- A field that may be absent. -/
def optional (name : String) (inner : Node) : Node :=
  .optional name inner

/-- A list of items of bounded length. -/
def array (name : String) (minLength maxLength : UInt32) (item : Node) : Except Error Node :=
  checked (.array name minLength maxLength item)

/-- A list of options of bounded length. -/
def enumArray (name : String) (minLength maxLength : UInt32) (e : Enumeration) :
    Except Error Node :=
  checked (.enumArray name minLength maxLength e)

/-- A group of fields with distinct names. -/
def object (name : String) (fields : List Node) : Except Error Node :=
  checked (.object name fields)

/-- A discriminated union.  The variants are stored in the order of the options; an option
without a variant gets no fields, and a variant that is no option is refused.  Of several
variants given for one option the last counts. -/
def union (name : String) (discriminator : Enumeration) (variants : List (String × List Node)) :
    Except Error Node := do
  discriminator.validate
  let given := Entries.ofList variants
  match given.find? fun (key, _) => !discriminator.options.contains key with
  | some (key, _) => .error (.construction name (.strayVariant key))
  | none =>
    checked (.union name discriminator
      (Entries.ofList (takeVariants given discriminator.options)))

/-- A reference to another field by name. -/
def pointer (name target : String) : Node :=
  .pointer name target

end Build

end Node

end FieldGrammar
