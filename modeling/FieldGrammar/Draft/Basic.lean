import FieldGrammar.Data.Entries
import FieldGrammar.Node.Basic

/-!
# Drafts of fields

A draft is what an editing surface works on: the shape of a node with every attribute optional
and with an identifier, so that a field can be followed while lists of fields are edited.  Drafts
never travel in tokens.

Identifiers are drawn from a supply, a sequence of strings.  `Draft.relabel` gives every draft
of a tree the next identifier of a supply, parents before children; copying a draft and clearing
its identifiers are two uses of it.

## Main definitions

* `Draft`
* `Draft.relabel` — new identifiers throughout a tree
* `Draft.duplicate`, `Draft.withoutIds`
* `Draft.ids` — the identifiers of a tree, in the order in which they are drawn
-/

namespace FieldGrammar

/-- A field being edited.  An attribute without a value is unset. -/
inductive Draft where
  | bool (id name : String)
  | int (id name : String) (min max : Option Int64)
  | fixed (id name : String) (min max precision : Option Float)
  | enumeration (id name : String) (options : Option (List String))
  | optional (id name : String) (inner : Option Draft)
  | array (id name : String) (minLength maxLength : Option UInt32) (item : Option Draft)
  | enumArray (id name : String) (minLength maxLength : Option UInt32)
      (enumName : Option String) (options : Option (List String))
  | object (id name : String) (fields : List Draft)
  | union (id name : String) (discriminatorName : Option String)
      (options : Option (List String)) (variants : List (String × List Draft))
  | pointer (id name : String) (target : Option String)
  deriving Inhabited

namespace Draft

/-- The identifier. -/
def id : Draft → String
  | bool id _ | int id .. | fixed id .. | enumeration id .. | optional id .. | array id ..
  | enumArray id .. | object id .. | union id .. | pointer id .. => id

/-- The name of the field. -/
def name : Draft → String
  | bool _ name | int _ name .. | fixed _ name .. | enumeration _ name _ | optional _ name _
  | array _ name .. | enumArray _ name .. | object _ name _ | union _ name .. | pointer _ name _ =>
    name

/-- The kind of node that the draft is for. -/
def kind : Draft → Kind
  | bool .. => .bool
  | int .. => .int
  | fixed .. => .fixed
  | enumeration .. => .enumeration
  | optional .. => .optional
  | array .. => .array
  | enumArray .. => .enumArray
  | object .. => .object
  | union .. => .union
  | pointer .. => .pointer

/-- A supply of identifiers, and how many of them have been drawn. -/
abbrev Drawing := StateM Nat

/-- Draws the next identifier of a supply. -/
def draw (supply : Nat → String) : Drawing String := fun n => (supply n, n + 1)

section

variable (supply : Nat → String)

mutual

/-- Gives a draft and all drafts below it new identifiers, parents first and variants in the
order in which they are stored. -/
def relabel : Draft → Drawing Draft
  | bool _ name => do
    return bool (← draw supply) name
  | int _ name min max => do
    return int (← draw supply) name min max
  | fixed _ name min max precision => do
    return fixed (← draw supply) name min max precision
  | enumeration _ name options => do
    return enumeration (← draw supply) name options
  | optional _ name none => do
    return optional (← draw supply) name none
  | optional _ name (some inner) => do
    return optional (← draw supply) name (some (← relabel inner))
  | array _ name minLength maxLength none => do
    return array (← draw supply) name minLength maxLength none
  | array _ name minLength maxLength (some item) => do
    return array (← draw supply) name minLength maxLength (some (← relabel item))
  | enumArray _ name minLength maxLength enumName options => do
    return enumArray (← draw supply) name minLength maxLength enumName options
  | object _ name fields => do
    return object (← draw supply) name (← relabelList fields)
  | union _ name discriminatorName options variants => do
    return union (← draw supply) name discriminatorName options (← relabelVariants variants)
  | pointer _ name target => do
    return pointer (← draw supply) name target

/-- Relabels the drafts of a list, in order. -/
def relabelList : List Draft → Drawing (List Draft)
  | [] => return []
  | draft :: rest => do
    let first ← relabel draft
    let more ← relabelList rest
    return first :: more

/-- Relabels the drafts of all variants. -/
def relabelVariants : List (String × List Draft) → Drawing (List (String × List Draft))
  | [] => return []
  | (key, fields) :: rest => do
    let first ← relabelList fields
    let more ← relabelVariants rest
    return (key, first) :: more

end

end

/-- A copy of a draft with new identifiers throughout. -/
def duplicate (supply : Nat → String) (draft : Draft) : Draft :=
  (relabel supply draft 0).1

/-- A copy of a draft in which every identifier is empty. -/
def withoutIds (draft : Draft) : Draft :=
  (relabel (fun _ => "") draft 0).1

mutual

/-- The identifiers of a draft and of all drafts below it, parents first. -/
def ids : Draft → List String
  | optional id _ (some inner) => id :: ids inner
  | array id _ _ _ (some item) => id :: ids item
  | object id _ fields => id :: idsList fields
  | union id _ _ _ variants => id :: idsVariants variants
  | draft => [draft.id]

/-- The identifiers of the drafts of a list. -/
def idsList : List Draft → List String
  | [] => []
  | draft :: rest => ids draft ++ idsList rest

/-- The identifiers of the drafts of all variants. -/
def idsVariants : List (String × List Draft) → List String
  | [] => []
  | (_, fields) :: rest => idsList fields ++ idsVariants rest

end

/-- A supply whose identifiers are pairwise distinct, not empty, and longer than any of those
given. -/
def freshSupply (taken : List String) : Nat → String :=
  let width := (taken.map String.length).foldl max 0
  fun n => String.ofList ('f' :: List.replicate width '0' ++ Nat.toDigits 10 n)

end Draft

end FieldGrammar
