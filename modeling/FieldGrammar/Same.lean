import FieldGrammar.Data.Value
import FieldGrammar.Draft.Basic
import FieldGrammar.Node.Basic

/-!
# When nodes, schemas, drafts and values are the same

Two nodes are the same when their kinds and attributes agree.  Numbers are compared as numbers,
so zero is the same whatever its sign and NaN is never the same as anything; lists are compared
in order; variants of unions and entries of objects are compared by name, in whatever order they
are stored.
-/

namespace FieldGrammar

namespace Node

mutual

/-- Whether two nodes are the same. -/
def same : Node → Node → Bool
  | bool a, bool b => a == b
  | int a lo hi, int b lo' hi' => a == b && lo == lo' && hi == hi'
  | fixed a lo hi step, fixed b lo' hi' step' => a == b && lo == lo' && hi == hi' && step == step'
  | enumeration e, enumeration e' => e == e'
  | optional a inner, optional b inner' => a == b && same inner inner'
  | array a lo hi item, array b lo' hi' item' => a == b && lo == lo' && hi == hi' && same item item'
  | enumArray a lo hi e, enumArray b lo' hi' e' => a == b && lo == lo' && hi == hi' && e == e'
  | object a fields, object b fields' => a == b && sameList fields fields'
  | union a e variants, union b e' variants' =>
    a == b && e == e' && variants.length == variants'.length && sameVariants variants variants'
  | pointer a target, pointer b target' => a == b && target == target'
  | _, _ => false

/-- Whether two lists hold the same nodes in the same order. -/
def sameList : List Node → List Node → Bool
  | [], [] => true
  | a :: as, b :: bs => same a b && sameList as bs
  | _, _ => false

/-- Whether each variant of the first list is in the second. -/
def sameVariants : List (String × List Node) → Entries (List Node) → Bool
  | [], _ => true
  | (key, fields) :: rest, others =>
    (match Entries.get? others key with
      | some fields' => sameList fields fields'
      | none => false) && sameVariants rest others

end

end Node

/-- Whether two schemas are the same. -/
def Schema.same (a b : Schema) : Bool :=
  a.name == b.name && Node.sameList a.fields b.fields

namespace Draft

mutual

/-- Whether two drafts are the same, identifiers included. -/
def same : Draft → Draft → Bool
  | bool i a, bool j b => i == j && a == b
  | int i a lo hi, int j b lo' hi' => i == j && a == b && lo == lo' && hi == hi'
  | fixed i a lo hi step, fixed j b lo' hi' step' =>
    i == j && a == b && lo == lo' && hi == hi' && step == step'
  | enumeration i a options, enumeration j b options' => i == j && a == b && options == options'
  | optional i a none, optional j b none => i == j && a == b
  | optional i a (some inner), optional j b (some inner') => i == j && a == b && same inner inner'
  | array i a lo hi none, array j b lo' hi' none => i == j && a == b && lo == lo' && hi == hi'
  | array i a lo hi (some item), array j b lo' hi' (some item') =>
    i == j && a == b && lo == lo' && hi == hi' && same item item'
  | enumArray i a lo hi e options, enumArray j b lo' hi' e' options' =>
    i == j && a == b && lo == lo' && hi == hi' && e == e' && options == options'
  | object i a fields, object j b fields' => i == j && a == b && sameList fields fields'
  | union i a e options variants, union j b e' options' variants' =>
    i == j && a == b && e == e' && options == options' && variants.length == variants'.length &&
      sameVariants variants variants'
  | pointer i a target, pointer j b target' => i == j && a == b && target == target'
  | _, _ => false

/-- Whether two lists hold the same drafts in the same order. -/
def sameList : List Draft → List Draft → Bool
  | [], [] => true
  | a :: as, b :: bs => same a b && sameList as bs
  | _, _ => false

/-- Whether each variant of the first list is in the second. -/
def sameVariants : List (String × List Draft) → Entries (List Draft) → Bool
  | [], _ => true
  | (key, fields) :: rest, others =>
    (match Entries.get? others key with
      | some fields' => sameList fields fields'
      | none => false) && sameVariants rest others

end

end Draft

namespace Value

mutual

/-- Whether two values are the same. -/
def same : Value → Value → Bool
  | null, null => true
  | bool a, bool b => a == b
  | int a, int b => a == b
  | fixed a, fixed b => a == b
  | string a, string b => a == b
  | array items, array items' => sameList items items'
  | object entries, object entries' =>
    entries.length == entries'.length && sameEntries entries entries'
  | _, _ => false

/-- Whether two lists hold the same values in the same order. -/
def sameList : List Value → List Value → Bool
  | [], [] => true
  | a :: as, b :: bs => same a b && sameList as bs
  | _, _ => false

/-- Whether each entry of the first list is in the second. -/
def sameEntries : List (String × Value) → Entries Value → Bool
  | [], _ => true
  | (key, value) :: rest, others =>
    (match Entries.get? others key with
      | some value' => same value value'
      | none => false) && sameEntries rest others

end

end Value

end FieldGrammar
