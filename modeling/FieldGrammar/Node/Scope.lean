import FieldGrammar.Error
import FieldGrammar.Node.Basic

/-!
# Traversals, and pointers with their targets

A traversal visits a node and everything below it, parents before children, and each visit hands a
state on to the next.  It never has the list of the nodes that it visits: that list is the walk, and
a traversal changes the state as running through the walk does.

A pointer refers to the first node of that name, other than a pointer, in a pre-order walk of
the schema's fields.  Since pointers are passed over, no pointer refers to itself and following
one always arrives at a node that describes data.

Looking for a target and looking for a pointer without one are both traversals whose state is what
has been found.  A visit that comes after a find changes nothing, so the first find is the one that
remains; to leave out the fields behind it saves visits and does not change the result.

## Main definitions

* `Node.traverse`, `Node.traverseList` — the visits below a node and below a list of fields
* `keepFirst` — a visit in search of something
* `searchFields` — a search that stops
* `resolveTarget`, `Schema.resolvePointers`

## Main statements

* `Node.traverse_eq_foldl`, `Node.traverseList_eq_foldl` — a traversal visits the nodes of the walk,
  in its order
* `traverseList_keepFirst`, `searchFields_eq` — a search finds the first find of the walk
* `resolveTarget_eq_find?`, `Schema.resolvePointers_eq` — the two searches, along the walk
-/

namespace FieldGrammar

/-! ## Traversals that carry a state -/

namespace Node

variable {σ : Type}

mutual

/-- Visits a node and everything below it. -/
def traverse (visit : σ → Node → σ) : Node → σ → σ
  | optional name inner, state => inner.traverse visit (visit state (optional name inner))
  | array name lo hi item, state => item.traverse visit (visit state (array name lo hi item))
  | object name fields, state => traverseList visit fields (visit state (object name fields))
  | union name discriminator variants, state =>
    discriminator.options.foldl (fun state option => traverseAt visit variants option state)
      (visit state (union name discriminator variants))
  | node, state => visit state node

/-- Visits the nodes of a list and everything below them, one node after the other. -/
def traverseList (visit : σ → Node → σ) : List Node → σ → σ
  | [], state => state
  | node :: rest, state => traverseList visit rest (node.traverse visit state)

/-- Visits the fields of a variant and everything below them. -/
def traverseAt (visit : σ → Node → σ) : List (String × List Node) → String → σ → σ
  | [], _, state => state
  | (key, fields) :: rest, option, state =>
    if key = option then traverseList visit fields state
    else traverseAt visit rest option state

end

mutual

/-- **A traversal visits the nodes of the walk, in its order.** -/
theorem traverse_eq_foldl (visit : σ → Node → σ) :
    ∀ (node : Node) (state : σ), node.traverse visit state = node.walk.foldl visit state
  | bool _, _ | int .., _ | fixed .., _ | enumeration _, _ | enumArray .., _ | pointer .., _ => rfl
  | optional _ inner, state => by
    rw [traverse, walk, List.foldl_cons, traverse_eq_foldl visit inner]
  | array _ _ _ item, state => by
    rw [traverse, walk, List.foldl_cons, traverse_eq_foldl visit item]
  | object _ fields, state => by
    rw [traverse, walk, List.foldl_cons, traverseList_eq_foldl visit fields]
  | union _ _ variants, state => by
    rw [traverse, walk, List.foldl_cons, List.foldl_flatMap]
    simp only [traverseAt_eq_foldl visit variants]

theorem traverseList_eq_foldl (visit : σ → Node → σ) :
    ∀ (nodes : List Node) (state : σ),
      traverseList visit nodes state = (walkList nodes).foldl visit state
  | [], _ => rfl
  | node :: rest, state => by
    rw [traverseList, walkList, List.foldl_append, traverse_eq_foldl visit node,
      traverseList_eq_foldl visit rest]

theorem traverseAt_eq_foldl (visit : σ → Node → σ) :
    ∀ (variants : List (String × List Node)) (option : String) (state : σ),
      traverseAt visit variants option state = (walkAt variants option).foldl visit state
  | [], _, _ => rfl
  | (key, fields) :: rest, option, state => by
    rw [traverseAt, walkAt]
    split
    · exact traverseList_eq_foldl visit fields state
    · exact traverseAt_eq_foldl visit rest option state

end

end Node

/-! ## Pointers and their targets -/

section Searches

variable {α : Type}

/-- A visit in search of something: a find of before stays, and else the node is put to the test. -/
def keepFirst (test : Node → Option α) : (found : Option α) → Node → Option α
  | some find, _ => some find
  | none, node => test node

/-- Searches fields one after the other.  Behind a field with a find no more of them are visited. -/
def searchFields (test : Node → Option α) : List Node → Option α
  | [] => none
  | field :: rest =>
    match field.traverse (keepFirst test) none with
    | some find => some find
    | none => searchFields test rest

end Searches

/-- The node that a pointer to `target` refers to. -/
def resolveTarget (scope : List Node) (target : String) : Option Node :=
  searchFields (Option.guard fun node => !node.isPointer && node.name == target) scope

/-- The failure of a node that is a pointer without a target. -/
def danglingError? (scope : List Node) : Node → Option Error
  | .pointer name target =>
    if (resolveTarget scope target).isNone then some (.unresolvedPointer name target) else none
  | _ => none

/-- Refuses the first pointer of the schema, in pre-order, that has no target. -/
def Schema.resolvePointers (schema : Schema) : Except Error Unit :=
  match Node.traverseList (keepFirst (danglingError? schema.fields)) schema.fields none with
  | some error => .error error
  | none => .ok ()

section Searches

variable {α : Type} {test : Node → Option α}

/-- Along a list of nodes, a find of before stays, and else the first find of the list is kept. -/
theorem foldl_keepFirst (nodes : List Node) (found : Option α) :
    nodes.foldl (keepFirst test) found = found.or (nodes.findSome? test) := by
  -- For every state at once: a visit without a find hands on an empty one, a find hands itself on.
  induction nodes generalizing found with
  | nil => rw [List.foldl_nil, List.findSome?_nil, Option.or_none]
  | cons node rest ih =>
      rw [List.foldl_cons, ih, List.findSome?_cons]
      cases found with
      | some find => rfl
      | none =>
          rw [keepFirst, Option.none_or]
          cases test node with
          | some find => rfl
          | none => rfl

theorem traverse_keepFirst (node : Node) (found : Option α) :
    node.traverse (keepFirst test) found = found.or (node.walk.findSome? test) := by
  rw [Node.traverse_eq_foldl, foldl_keepFirst]

/-- **A search through all fields finds the first find of the walk.** -/
theorem traverseList_keepFirst (fields : List Node) (found : Option α) :
    Node.traverseList (keepFirst test) fields found =
      found.or ((Node.walkList fields).findSome? test) := by
  rw [Node.traverseList_eq_foldl, foldl_keepFirst]

/-- **A search that stops behind a find has the same find.** -/
theorem searchFields_eq (fields : List Node) :
    searchFields test fields = (Node.walkList fields).findSome? test := by
  induction fields with
  | nil => rfl
  | cons field rest ih =>
      rw [searchFields, Node.walkList, List.findSome?_append, traverse_keepFirst, Option.none_or,
        ih]
      cases field.walk.findSome? test with
      | some find => rfl
      | none => rfl

end Searches

/-- The target of a pointer is the first node of the walk that is no pointer and has the name. -/
theorem resolveTarget_eq_find? (scope : List Node) (target : String) :
    resolveTarget scope target =
      (Node.walkList scope).find? fun node => !node.isPointer && node.name == target := by
  rw [resolveTarget, searchFields_eq, List.findSome?_guard]

/-- What resolving pointers reports is the first failure of the walk. -/
theorem Schema.resolvePointers_eq (schema : Schema) :
    schema.resolvePointers =
      match (Node.walkList schema.fields).findSome? (danglingError? schema.fields) with
      | some error => .error error
      | none => .ok () := by
  rw [resolvePointers, traverseList_keepFirst, Option.none_or]

/-- What a pointer resolves to is no pointer and has the name asked for. -/
theorem resolveTarget_some {scope : List Node} {target : String} {node : Node}
    (h : resolveTarget scope target = some node) :
    node.isPointer = false ∧ node.name = target ∧ node ∈ Node.walkList scope := by
  rw [resolveTarget_eq_find?] at h
  have hp := List.find?_some h
  simp only [Bool.and_eq_true, Bool.not_eq_true', beq_iff_eq] at hp
  exact ⟨hp.1, hp.2, List.mem_of_find?_eq_some h⟩

end FieldGrammar
