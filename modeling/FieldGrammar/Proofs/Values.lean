import Mathlib
import FieldGrammar.Data.Value

/-!
# Data values, part by part

A value is a tree of arrays and objects.  What is assumed of a whole value is assumed of each of
its parts, which are itself, its items or the values of its entries, and their parts.

## Main definitions

* `Value.parts` — a value and everything inside it
* `Value.nesting` — the number of arrays and objects inside one another

## Main statements

* `Value.induction` — a property that lists and objects inherit
* `Value.mem_parts_array`, `Value.mem_parts_object` — the parts of a container
-/

namespace FieldGrammar

namespace Value

/-- A property holds of every value if lists and objects inherit it from their items and entries. -/
@[elab_as_elim]
theorem induction {P : Value → Prop}
    (leaf : ∀ value : Value, (∀ items, value ≠ .array items) →
      (∀ entries, value ≠ .object entries) → P value)
    (array : ∀ items, (∀ item ∈ items, P item) → P (.array items))
    (object : ∀ entries, (∀ entry ∈ entries, P entry.2) → P (.object entries)) (value : Value) :
    P value := by
  refine @Value.rec P (fun items => ∀ item ∈ items, P item)
    (fun entries => ∀ entry ∈ entries, P entry.2) (fun entry => P entry.2)
    (leaf _ nofun nofun) (fun _ => leaf _ nofun nofun) (fun _ => leaf _ nofun nofun)
    (fun _ => leaf _ nofun nofun) (fun _ => leaf _ nofun nofun) array object ?_ ?_ ?_ ?_ ?_ value
  · exact nofun
  · intro head tail hhead htail
    exact List.forall_mem_cons.2 ⟨hhead, htail⟩
  · exact nofun
  · intro head tail hhead htail
    exact List.forall_mem_cons.2 ⟨hhead, htail⟩
  · intro key value hvalue
    exact hvalue

/-! ### Parts -/

mutual

/-- The value and everything inside it, in order.  What is assumed of a whole value, such as
distinct names, is assumed of each of its parts. -/
def parts : Value → List Value
  | array items => array items :: partsOfItems items
  | object entries => object entries :: partsOfEntries entries
  | value => [value]

/-- The parts of the items of an array. -/
def partsOfItems : List Value → List Value
  | [] => []
  | item :: rest => parts item ++ partsOfItems rest

/-- The parts of the values of entries. -/
def partsOfEntries : List (String × Value) → List Value
  | [] => []
  | (_, value) :: rest => parts value ++ partsOfEntries rest

end

theorem mem_partsOfItems {part : Value} {items : List Value} :
    part ∈ partsOfItems items ↔ ∃ item ∈ items, part ∈ item.parts := by
  induction items with
  | nil => simp [partsOfItems]
  | cons item rest ih => simp [partsOfItems, ih]

theorem mem_partsOfEntries {part : Value} {entries : Entries Value} :
    part ∈ partsOfEntries entries ↔ ∃ entry ∈ entries, part ∈ entry.2.parts := by
  induction entries with
  | nil => simp [partsOfEntries]
  | cons entry rest ih => simp [partsOfEntries, ih]

/-- The parts of an array are itself and the parts of its items. -/
theorem mem_parts_array {part : Value} {items : List Value} :
    part ∈ (array items).parts ↔ part = array items ∨ ∃ item ∈ items, part ∈ item.parts := by
  rw [parts, List.mem_cons, mem_partsOfItems]

/-- The parts of an object are itself and the parts of its values. -/
theorem mem_parts_object {part : Value} {entries : Entries Value} :
    part ∈ (object entries).parts ↔
      part = object entries ∨ ∃ entry ∈ entries, part ∈ entry.2.parts := by
  rw [parts, List.mem_cons, mem_partsOfEntries]

/-! ### Nesting -/

mutual

/-- The number of arrays and objects inside one another. -/
def nesting : Value → Nat
  | array items => itemsNesting items + 1
  | object entries => entriesNesting entries + 1
  | _ => 0

/-- The greatest nesting among the items of an array. -/
def itemsNesting : List Value → Nat
  | [] => 0
  | item :: rest => max (nesting item) (itemsNesting rest)

/-- The greatest nesting among the values of entries. -/
def entriesNesting : List (String × Value) → Nat
  | [] => 0
  | (_, value) :: rest => max (nesting value) (entriesNesting rest)

end

end Value

end FieldGrammar
