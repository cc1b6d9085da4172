import Mathlib
import FieldGrammar.Proofs.Trees

/-!
# Targets in pre-order

Where a pointer leads is decided by position.  A *position* below the fields of a schema is a list
of indices: that of a field, that of one of its children, and so on down.  In the order of
positions a node stands in front of all nodes below it, and these stand in front of its later
siblings and all nodes below those.  A union has the fields of its variants as children, variant by
variant in the order of the options.

The walks of the fields, one after the other, run through all positions in this order.  So the find
that a search keeps is the one at the least position, however many nodes of the same name there are
and wherever the search stops.

## Main definitions

* `FirstWith` — the first member of a list with a property
* `Node.Answers`, `Node.Dangles` — what a pointer can refer to, and a pointer that refers to nothing
* `Node.at?`, `Node.below?` — the node at a position
* `Node.Enumerates` — nodes listed in the order of their positions

## Main statements

* `resolveTarget_eq_some_iff`, `resolveTarget_eq_none_iff` — the target of a name
* `Schema.resolvePointers_eq_error_iff`, `Schema.resolvePointers_eq_ok_iff` — what resolving
  pointers refuses
* `Node.exists_enumerates_walkList` — the walks of the fields run through the positions in order
* `resolveTarget_eq_some_iff_position` — the target of a name by its position
* `targets_in_preorder` — pointers are resolved in pre-order
-/

namespace FieldGrammar

/-- The item is the first of a list to have a property. -/
def FirstWith {α : Type} (P : α → Prop) (items : List α) (item : α) : Prop :=
  ∃ before after, items = before ++ item :: after ∧ P item ∧ ∀ earlier ∈ before, ¬ P earlier

namespace Node

/-- A pointer to `target` can refer to the node: it is no pointer itself and has the name. -/
def Answers (target : String) (node : Node) : Prop :=
  node.isPointer = false ∧ node.name = target

/-- The node is a pointer that nothing in the walks of the fields answers to. -/
def Dangles (fields : List Node) (node : Node) : Prop :=
  ∃ name target, node = .pointer name target ∧
    ∀ other ∈ fields.flatMap walk, ¬ other.Answers target

theorem answers_iff {target : String} {node : Node} :
    (!node.isPointer && node.name == target) = true ↔ node.Answers target := by
  rw [Answers, Bool.and_eq_true, Bool.not_eq_true', beq_iff_eq]

end Node

/-! ### The target of a name -/

section Targets

variable {scope : List Node} {target : String}

theorem resolveTarget_eq_none_iff :
    resolveTarget scope target = none ↔
      ∀ node ∈ scope.flatMap Node.walk, ¬ node.Answers target := by
  rw [resolveTarget_eq_find?, List.find?_eq_none, Node.walkList_eq]
  simp only [Node.answers_iff]

/-- **The target of a name is the first node of the walks that answers to it.**  Within a field the
search goes on behind a find and keeps it; further fields are not visited. -/
theorem resolveTarget_eq_some_iff {node : Node} :
    resolveTarget scope target = some node ↔
      FirstWith (Node.Answers target) (scope.flatMap Node.walk) node := by
  rw [resolveTarget_eq_find?, List.find?_eq_some_iff_append, Node.walkList_eq]
  simp only [Bool.not_eq_true', ← Bool.not_eq_true, Node.answers_iff]
  constructor
  · rintro ⟨hnode, before, after, hwalk, hbefore⟩
    exact ⟨before, after, hwalk, hnode, hbefore⟩
  · rintro ⟨before, after, hwalk, hnode, hbefore⟩
    exact ⟨hnode, before, after, hwalk, hbefore⟩

/-- The failure of a node is that of a pointer without a target.  Other nodes do not fail. -/
theorem danglingError?_eq_some_iff {node : Node} {e : Error} :
    danglingError? scope node = some e ↔
      ∃ name target, node = .pointer name target ∧ resolveTarget scope target = none ∧
        e = .unresolvedPointer name target := by
  cases node with
  | pointer name target =>
      rw [danglingError?]
      split
      · next hnone =>
        rw [Option.isNone_iff_eq_none] at hnone
        constructor
        · rintro ⟨⟩
          exact ⟨name, target, rfl, hnone, rfl⟩
        · rintro ⟨_, _, ⟨⟩, -, rfl⟩
          rfl
      · next hsome =>
        rw [Option.isNone_iff_eq_none] at hsome
        constructor
        · rintro ⟨⟩
        · rintro ⟨_, _, ⟨⟩, hnone, -⟩
          exact absurd hnone hsome
  | bool | int | fixed | enumeration | optional | array | enumArray | object | union =>
      constructor
      · rintro ⟨⟩
      · rintro ⟨_, _, ⟨⟩, -⟩

theorem danglingError?_eq_none_iff {node : Node} :
    danglingError? scope node = none ↔ ¬ node.Dangles scope := by
  rw [← not_iff_not, not_not, ← Ne, Option.ne_none_iff_exists']
  simp only [danglingError?_eq_some_iff, resolveTarget_eq_none_iff]
  constructor
  · rintro ⟨_, name, target, hnode, hnone, -⟩
    exact ⟨name, target, hnode, hnone⟩
  · rintro ⟨name, target, hnode, hnone⟩
    exact ⟨_, name, target, hnode, hnone, rfl⟩

end Targets

/-! ### Resolving all pointers -/

namespace Schema

variable {schema : Schema}

theorem resolvePointers_eq_ok_iff :
    schema.resolvePointers = .ok () ↔
      ∀ node ∈ schema.fields.flatMap Node.walk, ¬ node.Dangles schema.fields := by
  simp only [← danglingError?_eq_none_iff, ← List.findSome?_eq_none_iff, ← Node.walkList_eq]
  rw [resolvePointers_eq]
  cases (Node.walkList schema.fields).findSome? (danglingError? schema.fields) with
  | none => exact ⟨fun _ => rfl, fun _ => rfl⟩
  | some e => exact ⟨nofun, nofun⟩

/-- **What resolving pointers reports is the first pointer of the walks without a target.**  A
target may stand before the pointer or after it. -/
theorem resolvePointers_eq_error_iff {e : Error} :
    schema.resolvePointers = .error e ↔
      ∃ field target,
        FirstWith (Node.Dangles schema.fields) (schema.fields.flatMap Node.walk)
          (.pointer field target) ∧ e = .unresolvedPointer field target := by
  have hfind : schema.resolvePointers = .error e ↔
      (Node.walkList schema.fields).findSome? (danglingError? schema.fields) = some e := by
    rw [resolvePointers_eq]
    cases (Node.walkList schema.fields).findSome? (danglingError? schema.fields) with
    | none => exact ⟨nofun, nofun⟩
    | some e' => rw [Except.error.injEq, Option.some.injEq]
  rw [hfind, List.findSome?_eq_some_iff, Node.walkList_eq]
  simp only [danglingError?_eq_some_iff, danglingError?_eq_none_iff]
  constructor
  · rintro ⟨before, node, after, hwalk, ⟨field, target, rfl, hnone, rfl⟩, hbefore⟩
    have hdangles : (Node.pointer field target).Dangles schema.fields :=
      ⟨field, target, rfl, resolveTarget_eq_none_iff.1 hnone⟩
    exact ⟨field, target, ⟨before, after, hwalk, hdangles, hbefore⟩, rfl⟩
  · rintro ⟨field, target, ⟨before, after, hwalk, ⟨_, _, ⟨⟩, hnone⟩, hbefore⟩, rfl⟩
    exact ⟨before, _, after, hwalk,
      ⟨field, target, rfl, resolveTarget_eq_none_iff.2 hnone, rfl⟩, hbefore⟩

end Schema

/-! ### Positions -/

namespace Node

/-- The node at a position below a node: the indices of the children to take, from the top. -/
def at? (node : Node) : (position : List Nat) → Option Node
  | [] => some node
  | i :: rest => node.children[i]?.bind fun child => child.at? rest

/-- The node at a position below a list of nodes, of which the first index chooses one. -/
def below? (nodes : List Node) : (position : List Nat) → Option Node
  | [] => none
  | i :: rest => nodes[i]?.bind fun node => node.at? rest

/-- The nodes are all those that have a position, in the lexicographic order of their positions.  So
a list of nodes in some order is compared with positions, which do not mention traversals. -/
structure Enumerates (find : List Nat → Option Node) (positions : List (List Nat))
    (nodes : List Node) : Prop where
  sorted : positions.Pairwise (· < ·)
  found : positions.map find = nodes.map some
  complete : ∀ position, (find position).isSome → position ∈ positions

namespace Enumerates

variable {find : List Nat → Option Node} {positions : List (List Nat)} {nodes : List Node}

/-- A listed position has a node. -/
theorem isSome_of_mem (h : Enumerates find positions nodes) {position : List Nat}
    (hmem : position ∈ positions) : (find position).isSome := by
  have hfound : find position ∈ nodes.map some := h.found ▸ List.mem_map_of_mem hmem
  obtain ⟨node, -, hnode⟩ := List.mem_map.1 hfound
  rw [← hnode, Option.isSome_some]

/-- In front of a listed position are the lesser ones that have a node. -/
theorem mem_left_iff {left right : List (List Nat)} {position earlier : List Nat}
    (h : Enumerates find (left ++ position :: right) nodes) :
    earlier ∈ left ↔ earlier < position ∧ (find earlier).isSome := by
  obtain ⟨-, hright, hleft⟩ := List.pairwise_append.1 h.sorted
  constructor
  · intro hmem
    exact ⟨hleft _ hmem _ List.mem_cons_self, h.isSome_of_mem (List.mem_append_left _ hmem)⟩
  · rintro ⟨hlt, hnode⟩
    rcases List.mem_append.1 (h.complete earlier hnode) with hmem | hmem
    · exact hmem
    · rcases List.mem_cons.1 hmem with rfl | hmem
      · exact absurd hlt (lt_irrefl earlier)
      · exact absurd hlt ((List.pairwise_cons.1 hright).1 _ hmem).asymm

/-- The nodes listed in front of a position are those at lesser ones. -/
theorem mem_before_iff {left right : List (List Nat)} {position : List Nat} {before : List Node}
    (h : Enumerates find (left ++ position :: right) nodes)
    (hleft : left.map find = before.map some) {other : Node} :
    other ∈ before ↔ ∃ earlier < position, find earlier = some other := by
  have hlisted : other ∈ before ↔ ∃ earlier ∈ left, find earlier = some other := by
    rw [← List.mem_map, hleft, List.mem_map_of_injective (Option.some_injective Node)]
  rw [hlisted]
  constructor
  · rintro ⟨earlier, hmem, hother⟩
    exact ⟨earlier, (h.mem_left_iff.1 hmem).1, hother⟩
  · rintro ⟨earlier, hlt, hother⟩
    exact ⟨earlier, h.mem_left_iff.2 ⟨hlt, hother ▸ rfl⟩, hother⟩

/-- **The first node with a property is the one at the least position.** -/
theorem firstWith_iff (h : Enumerates find positions nodes) {P : Node → Prop} {node : Node} :
    FirstWith P nodes node ↔
      ∃ position, find position = some node ∧ P node ∧
        ∀ earlier < position, ∀ other, find earlier = some other → ¬ P other := by
  have hfound := h.found
  constructor
  · rintro ⟨before, after, rfl, hnode, hbefore⟩
    rw [List.map_append, List.map_cons, List.map_eq_append_iff] at hfound
    obtain ⟨left, rest, rfl, hleft, hrest⟩ := hfound
    obtain ⟨position, right, rfl, hposition, -⟩ := List.map_eq_cons_iff.1 hrest
    refine ⟨position, hposition, hnode, fun earlier hlt other hother => ?_⟩
    exact hbefore other ((h.mem_before_iff hleft).2 ⟨earlier, hlt, hother⟩)
  · rintro ⟨position, hposition, hnode, hleast⟩
    obtain ⟨left, right, rfl⟩ := List.append_of_mem (h.complete position (hposition ▸ rfl))
    rw [eq_comm, List.map_append, List.map_cons, List.map_eq_append_iff] at hfound
    obtain ⟨before, rest, rfl, hleft, hrest⟩ := hfound
    obtain ⟨first, after, rfl, hfirst, -⟩ := List.map_eq_cons_iff.1 hrest
    rw [hposition, Option.some_inj] at hfirst
    subst hfirst
    refine ⟨before, after, rfl, hnode, fun other hother => ?_⟩
    obtain ⟨earlier, hlt, hearlier⟩ := (h.mem_before_iff hleft.symm).1 hother
    exact hleast earlier hlt other hearlier

end Enumerates

/-- A position behind the first node of a list is one among the others, moved on. -/
theorem below?_cons_modifyHead (node : Node) (nodes : List Node) (position : List Nat) :
    below? (node :: nodes) (position.modifyHead (· + 1)) = below? nodes position := by
  cases position with
  | nil => rfl
  | cons i rest => rfl

/-- Moving two positions on keeps their order. -/
theorem modifyHead_lt_modifyHead {position position' : List Nat} (h : position < position') :
    position.modifyHead (· + 1) < position'.modifyHead (· + 1) := by
  cases position with
  | nil =>
      cases position' with
      | nil => cases h
      | cons j rest' => exact List.nil_lt_cons _ _
  | cons i rest =>
      cases position' with
      | nil => cases h
      | cons j rest' =>
          rw [List.modifyHead_cons, List.modifyHead_cons, List.cons_lt_cons_iff]
          rcases List.cons_lt_cons_iff.1 h with hlt | ⟨rfl, hlt⟩
          · exact .inl (Nat.succ_lt_succ hlt)
          · exact .inr ⟨rfl, hlt⟩

/-- The positions of a list are those of its first node and, moved on, those of the others. -/
theorem enumerates_cons {node : Node} {nodes : List Node} {first later : List (List Nat)}
    (hfirst : Enumerates node.at? first node.walk)
    (hlater : Enumerates (below? nodes) later (walkList nodes)) :
    Enumerates (below? (node :: nodes))
      (first.map (0 :: ·) ++ later.map (List.modifyHead (· + 1))) (walkList (node :: nodes)) where
  sorted := by
    rw [List.pairwise_append, List.pairwise_map, List.pairwise_map]
    refine ⟨hfirst.sorted.imp fun hlt => ?_, hlater.sorted.imp modifyHead_lt_modifyHead, ?_⟩
    · exact List.cons_lt_cons_iff.2 (.inr ⟨rfl, hlt⟩)
    · -- The first index tells the two parts apart; no position of the others is empty.
      intro _ hleft _ hright
      obtain ⟨position, -, rfl⟩ := List.mem_map.1 hleft
      obtain ⟨position', hmem, rfl⟩ := List.mem_map.1 hright
      have hnode := hlater.isSome_of_mem hmem
      cases position' with
      | nil => cases hnode
      | cons i rest => exact List.cons_lt_cons_iff.2 (.inl i.succ_pos)
  found := by
    have hmoved : below? (node :: nodes) ∘ List.modifyHead (· + 1) = below? nodes :=
      funext (below?_cons_modifyHead node nodes)
    rw [walkList, List.map_append, List.map_append, List.map_map, List.map_map, hmoved,
      hlater.found, ← hfirst.found]
    rfl
  complete position hnode := by
    rw [List.mem_append]
    match position with
    | [] => cases hnode
    | 0 :: rest => exact .inl (List.mem_map_of_mem (hfirst.complete rest hnode))
    | (i + 1) :: rest =>
      exact .inr (List.mem_map.2 ⟨i :: rest, hlater.complete (i :: rest) hnode, rfl⟩)

/-- The own position of a node comes first, and then those among its children. -/
theorem enumerates_walk {node : Node} {positions : List (List Nat)}
    (h : Enumerates (below? node.children) positions (walkList node.children)) :
    Enumerates node.at? ([] :: positions) node.walk := by
  -- The two searches differ at the empty position only, and that is the node itself.
  have hbelow : ∀ position ∈ positions,
      node.at? position = below? node.children position ∧ [] < position := by
    intro position hmem
    have hnode := h.isSome_of_mem hmem
    cases position with
    | nil => cases hnode
    | cons i rest => exact ⟨rfl, List.nil_lt_cons _ _⟩
  constructor
  · exact List.pairwise_cons.2 ⟨fun position hmem => (hbelow position hmem).2, h.sorted⟩
  · rw [walk_eq, ← walkList_eq, List.map_cons, List.map_cons, ← h.found]
    exact congrArg _ (List.map_congr_left fun position hmem => (hbelow position hmem).1)
  · intro position hnode
    cases position with
    | nil => exact List.mem_cons_self
    | cons i rest => exact List.mem_cons_of_mem _ (h.complete (i :: rest) hnode)

/-- A list has its positions in order if its members have theirs. -/
theorem exists_enumerates_of_forall {nodes : List Node}
    (h : ∀ node ∈ nodes, ∃ positions, Enumerates node.at? positions node.walk) :
    ∃ positions, Enumerates (below? nodes) positions (walkList nodes) := by
  induction nodes with
  | nil =>
      refine ⟨[], .nil, rfl, fun position hnode => ?_⟩
      cases position <;> cases hnode
  | cons node nodes ih =>
      obtain ⟨first, hfirst⟩ := h node List.mem_cons_self
      obtain ⟨later, hlater⟩ := ih fun m hm => h m (List.mem_cons_of_mem _ hm)
      exact ⟨_, enumerates_cons hfirst hlater⟩

/-- The walk of a node runs through the positions at and below it in order. -/
theorem exists_enumerates_walk (node : Node) :
    ∃ positions, Enumerates node.at? positions node.walk := by
  induction node using induction_children with
  | step node ih =>
      obtain ⟨positions, h⟩ := exists_enumerates_of_forall ih
      exact ⟨_, enumerates_walk h⟩

/-- **The walks of the fields, one after the other, run through all positions in order.**  This is
what it means that a traversal goes in pre-order. -/
theorem exists_enumerates_walkList (fields : List Node) :
    ∃ positions, Enumerates (below? fields) positions (walkList fields) :=
  exists_enumerates_of_forall fun node _ => exists_enumerates_walk node

end Node

/-! ### Pointers in pre-order -/

/-- **The target of a name is the node at the least position that answers to it.** -/
theorem resolveTarget_eq_some_iff_position {scope : List Node} {target : String} {node : Node} :
    resolveTarget scope target = some node ↔
      ∃ position, Node.below? scope position = some node ∧ node.Answers target ∧
        ∀ earlier < position, ∀ other, Node.below? scope earlier = some other →
          ¬ other.Answers target := by
  obtain ⟨positions, h⟩ := Node.exists_enumerates_walkList scope
  rw [resolveTarget_eq_some_iff, ← Node.walkList_eq, h.firstWith_iff]

/-- **Pointers are resolved in pre-order.**  The walks of the fields, one after the other, run
through all positions in order.  The target of a name is the first node of these walks that is no
pointer and has the name; there is none exactly if no node of the walks is like that.  Resolving the
pointers of a schema fails exactly if some pointer of the walks has no target, and it reports the
first such pointer, with its name and the name that it asks for. -/
theorem targets_in_preorder (fields : List Node) :
    (∃ positions, Node.Enumerates (Node.below? fields) positions (fields.flatMap Node.walk)) ∧
      (∀ target,
        (∀ node, resolveTarget fields target = some node ↔
          FirstWith (Node.Answers target) (fields.flatMap Node.walk) node) ∧
        (resolveTarget fields target = none ↔
          ∀ node ∈ fields.flatMap Node.walk, ¬ node.Answers target)) ∧
      ∀ name,
        (∀ e, Schema.resolvePointers ⟨name, fields⟩ = .error e ↔
          ∃ field target,
            FirstWith (Node.Dangles fields) (fields.flatMap Node.walk) (.pointer field target) ∧
              e = .unresolvedPointer field target) ∧
        (Schema.resolvePointers ⟨name, fields⟩ = .ok () ↔
          ∀ node ∈ fields.flatMap Node.walk, ¬ node.Dangles fields) := by
  refine ⟨?_, fun target => ?_, fun name => ?_⟩
  · rw [← Node.walkList_eq]
    exact Node.exists_enumerates_walkList fields
  · exact ⟨fun node => resolveTarget_eq_some_iff, resolveTarget_eq_none_iff⟩
  · exact ⟨fun e => Schema.resolvePointers_eq_error_iff, Schema.resolvePointers_eq_ok_iff⟩

/-- A tree whose variants are stored in another order than that of the options, behind a pointer
that has the name of its leaves. -/
def orchardFields : List Node :=
  [.pointer "leaf" "tree",
    .union "tree" ⟨"kind", ["twig", "fruit"]⟩
      [("fruit", [.int "leaf" 0 1]),
        ("twig", [.array "leaves" 0 9 (.bool "leaf"), .pointer "root" "soil"])],
    .object "leaf" [.pointer "tip" "sky"]]

example : resolveTarget orchardFields "leaf" = some (.bool "leaf") := rfl

example : Schema.resolvePointers ⟨"orchard", orchardFields⟩ =
    .error (.unresolvedPointer "root" "soil") := rfl

end FieldGrammar
