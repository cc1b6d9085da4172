import Mathlib
import FieldGrammar.Proofs.Conversions

/-!
# Identifiers of drafts

Identifiers are drawn from a supply, one after the other, and a draft has as many of them as there
are drafts in its tree.  The tree is listed by `Draft.walk`, parents first: what an optional or an
array holds, if it is set, the fields of an object, and the fields of every stored variant of a
union, whether its name is an option or not.

**Copies.**  A copy draws one identifier for each draft of the tree, in the order of the walk, and
the drafts of its walk are otherwise those of the original, one by one.

**Drafts of nodes.**  The draft of a valid node draws one identifier for each node of the walk.  The
drafts of its walk are those of the nodes, one by one.  A draft draws its own identifier after those
of its contents, so the identifiers are the drawn ones in another order.

A traversal draws what its elements draw (`Draft.draws_mapM`), so each tree is an induction in which
only the draft at the root draws by itself.

## Main definitions

* `Draft.walk` — a draft and all drafts below it
* `Draft.upcoming` — the identifiers that a supply has next
* `Draft.Draws` — a computation that draws a number of identifiers for its result

## Main statements

* `Draft.walk_cleared`, `Draft.walk_bare` — what the drafts of a walk are
* `Draft.draws_relabel`, `Draft.draws_drawNode` — what is drawn for a tree
* `Draft.walk_ids_of_duplicate_and_ofNode` — the identifiers of copies and of drafts of nodes
-/

namespace FieldGrammar

namespace Node

theorem walk_object (name : String) (fields : List Node) :
    walk (object name fields) = object name fields :: fields.flatMap walk := by
  rw [walk, walkList_eq]

/-- The walk of a union goes through the variants option by option. -/
theorem walk_union (name : String) (discriminator : Enumeration) (variants : Entries (List Node)) :
    walk (union name discriminator variants) =
      union name discriminator variants :: discriminator.options.flatMap fun option =>
        ((Entries.get? variants option).getD []).flatMap walk := by
  simp only [walk, walkAt_eq, walkList_eq]

end Node

namespace Draft

/-! ### Walks -/

mutual

/-- A draft and all drafts below it, parents first and variants in the order in which they are
stored.  An unset inner draft or item is no draft and is passed over. -/
def walk : Draft → List Draft
  | optional id name (some inner) => optional id name (some inner) :: walk inner
  | array id name minLength maxLength (some item) =>
    array id name minLength maxLength (some item) :: walk item
  | object id name fields => object id name fields :: walkList fields
  | union id name discriminatorName options variants =>
    union id name discriminatorName options variants :: walkVariants variants
  | draft => [draft]

/-- The walks of a list of drafts, one after the other. -/
def walkList : List Draft → List Draft
  | [] => []
  | draft :: rest => walk draft ++ walkList rest

/-- The walks of the drafts of all variants. -/
def walkVariants : List (String × List Draft) → List Draft
  | [] => []
  | (_, fields) :: rest => walkList fields ++ walkVariants rest

end

/-- A list of drafts is walked one by one.  Like the next lemmas, this opens a recursion that is
mutual with that over drafts. -/
theorem walkList_eq (fields : List Draft) : walkList fields = fields.flatMap walk := by
  induction fields with
  | nil => rfl
  | cons field rest ih => rw [walkList, ih, List.flatMap_cons]

theorem walkVariants_eq (variants : Entries (List Draft)) :
    walkVariants variants = variants.flatMap fun entry => entry.2.flatMap walk := by
  induction variants with
  | nil => rfl
  | cons entry rest ih => rw [walkVariants, ih, walkList_eq, List.flatMap_cons]

theorem walk_object (id name : String) (fields : List Draft) :
    walk (object id name fields) = object id name fields :: fields.flatMap walk := by
  rw [walk, walkList_eq]

/-- The walk of a draft of a union goes through the variants as they are stored. -/
theorem walk_union (id name : String) (discriminatorName : Option String)
    (options : Option (List String)) (variants : Entries (List Draft)) :
    walk (union id name discriminatorName options variants) =
      union id name discriminatorName options variants ::
        variants.flatMap fun entry => entry.2.flatMap walk := by
  rw [walk, walkVariants_eq]

theorem idsList_eq (fields : List Draft) : idsList fields = fields.flatMap ids := by
  induction fields with
  | nil => rfl
  | cons field rest ih => rw [idsList, ih, List.flatMap_cons]

theorem idsVariants_eq (variants : Entries (List Draft)) :
    idsVariants variants = variants.flatMap fun entry => entry.2.flatMap ids := by
  induction variants with
  | nil => rfl
  | cons entry rest ih => rw [idsVariants, ih, idsList_eq, List.flatMap_cons]

theorem ids_object (id name : String) (fields : List Draft) :
    ids (object id name fields) = id :: fields.flatMap ids := by
  rw [ids, idsList_eq]

theorem ids_union (id name : String) (discriminatorName : Option String)
    (options : Option (List String)) (variants : Entries (List Draft)) :
    ids (union id name discriminatorName options variants) =
      id :: variants.flatMap fun entry => entry.2.flatMap ids := by
  rw [ids, idsVariants_eq]

/-- The identifiers of a tree are those of the drafts of its walk.  So whatever is shown of walks,
one draft at a time, is shown of identifiers. -/
theorem ids_eq (draft : Draft) : draft.ids = draft.walk.map id := by
  induction draft with
  | bool | int | fixed | enumeration | optionalUnset | arrayUnset | enumArray | pointer => rfl
  | optional id name inner ih => rw [ids, walk, ih, List.map_cons, Draft.id]
  | array id name minLength maxLength item ih => rw [ids, walk, ih, List.map_cons, Draft.id]
  | object id name fields ih =>
      rw [ids_object, walk_object, List.map_cons, List.map_flatMap, Draft.id,
        List.flatMap_congr ih]
  | union id name discriminatorName options variants ih =>
      have hvariants : (variants.flatMap fun entry => entry.2.flatMap ids) =
          variants.flatMap fun entry => (entry.2.flatMap walk).map Draft.id := by
        refine List.flatMap_congr fun entry hentry => ?_
        rw [List.map_flatMap, List.flatMap_congr (ih entry hentry)]
      rw [ids_union, hvariants, walk_union, List.map_cons, List.map_flatMap, Draft.id]

/-- Clearing a tree clears the drafts of its walk. -/
theorem walk_cleared (draft : Draft) : draft.cleared.walk = draft.walk.map cleared := by
  induction draft with
  | bool | int | fixed | enumeration | optionalUnset | arrayUnset | enumArray | pointer => rfl
  | optional id name inner ih => rw [cleared, walk, walk, ih, List.map_cons, cleared]
  | array id name minLength maxLength item ih =>
      rw [cleared, walk, walk, ih, List.map_cons, cleared]
  | object id name fields ih =>
      rw [cleared_object, walk_object, walk_object, List.map_cons, cleared_object,
        List.map_flatMap, List.flatMap_map, List.flatMap_congr ih]
  | union id name discriminatorName options variants ih =>
      rw [cleared_union, walk_union, walk_union, List.map_cons, cleared_union, List.map_flatMap,
        List.flatMap_map]
      refine congrArg _ (List.flatMap_congr fun entry hentry => ?_)
      rw [List.flatMap_map, List.map_flatMap, List.flatMap_congr (ih entry hentry)]

/-- Distinct options have one variant each. -/
theorem bare_union_of_nodup (name : String) {discriminator : Enumeration}
    (h : discriminator.options.Nodup) (variants : Entries (List Node)) :
    bare (.union name discriminator variants) =
      union "" name (some discriminator.name) (some discriminator.options)
        (discriminator.options.map fun option =>
          (option, ((Entries.get? variants option).getD []).map bare)) := by
  rw [bare]
  simp only [bareAt_eq]
  rw [Entries.ofList_of_nodup]
  rwa [Entries.keys_map_self]

/-- The draft of a valid node has the drafts of the nodes of its walk. -/
theorem walk_bare {node : Node} (h : node.Valid) : (bare node).walk = node.walk.map bare := by
  -- Only a union has to be looked at: its draft stores the variants in the order of the options.
  induction node with
  | bool | int | fixed | enumeration | enumArray | pointer => rfl
  | optional name inner ih =>
      rw [bare, walk, ih (Node.valid_optional_iff.1 h), Node.walk, List.map_cons, bare]
  | array name minLength maxLength item ih =>
      rw [bare, walk, ih (Node.valid_array_iff.1 h).2, Node.walk, List.map_cons, bare]
  | object name fields ih =>
      have hfields := (Node.valid_object_iff.1 h).2
      rw [bare_object, walk_object, Node.walk_object, List.map_cons, bare_object,
        List.map_flatMap, List.flatMap_map,
        List.flatMap_congr fun field hfield => ih field hfield (hfields field hfield)]
  | union name discriminator variants ih =>
      obtain ⟨⟨-, hoptions⟩, -, hfields⟩ := Node.valid_union_iff.1 h
      have hwalk := Entries.forall_mem_getD fun entry hentry field hfield =>
        ih entry hentry field hfield ((hfields entry hentry).2 field hfield)
      rw [Node.walk_union, List.map_cons, bare_union_of_nodup name hoptions, walk_union,
        List.map_flatMap, List.flatMap_map]
      refine congrArg _ (List.flatMap_congr fun option _ => ?_)
      rw [List.flatMap_map, List.map_flatMap, List.flatMap_congr (hwalk option)]

/-! ### Drawing from a supply -/

section

variable {α β : Type} (supply : Nat → String)

/-- The next `k` identifiers of a supply, from a count on.  A supply is a function of the count, so
these are known before anything is drawn. -/
def upcoming (n k : Nat) : List String :=
  (List.range' n k).map supply

/-- The next identifiers of a supply are some of them and those that come then. -/
theorem upcoming_add (n j k : Nat) :
    upcoming supply n (j + k) = upcoming supply n j ++ upcoming supply (n + j) k := by
  rw [upcoming, ← List.range'_append_1, List.map_append]
  rfl

/-- Drawing before the others, as copies do. -/
theorem upcoming_succ (n k : Nat) :
    upcoming supply n (k + 1) = supply n :: upcoming supply (n + 1) k := rfl

/-- Drawing after the others, as drafts of nodes do. -/
theorem upcoming_concat (n k : Nat) :
    upcoming supply n (k + 1) = upcoming supply n k ++ [supply (n + k)] :=
  upcoming_add supply n k 1

/-- From any count on, the computation draws `k` identifiers, and the identifiers of its result are
related to these.  For copies the relation is equality, for drafts of nodes that one is a
rearrangement of the other. -/
def Draws (R : List String → List String → Prop) (idsOf : α → List String) (k : Nat)
    (x : Drawing α) : Prop :=
  ∀ n, (x n).2 = n + k ∧ R (idsOf (x n).1) (upcoming supply n k)

variable {supply}

/-- **A traversal draws what its elements draw**, in their order and without gaps. -/
theorem draws_mapM {R : List String → List String → Prop} (hnil : R [] [])
    (happend : ∀ {a b c d}, R a b → R c d → R (a ++ c) (b ++ d)) {idsOf : β → List String}
    {k : α → Nat} {f : α → Drawing β} {xs : List α}
    (h : ∀ x ∈ xs, Draws supply R idsOf (k x) (f x)) :
    Draws supply R (List.flatMap idsOf) (xs.map k).sum (xs.mapM f) := by
  induction xs with
  | nil =>
      rw [List.mapM_nil]
      exact fun n => ⟨rfl, hnil⟩
  | cons x xs ih =>
      obtain ⟨hx, hxs⟩ := List.forall_mem_cons.1 h
      intro n
      obtain ⟨hcount, hids⟩ := hx n
      obtain ⟨hcounts, hrest⟩ := ih hxs (n + k x)
      rw [mapM_cons_apply, hcount, List.map_cons, List.sum_cons]
      refine ⟨hcounts.trans (Nat.add_assoc n _ _), ?_⟩
      rw [List.flatMap_cons, upcoming_add]
      exact happend hids hrest

/-- A draft that draws its identifier before those of its contents. -/
theorem Draws.before {idsOf : α → List String} {k : Nat} {x : Drawing α}
    (h : Draws supply Eq idsOf k x) (n : Nat) :
    (x (n + 1)).2 = n + (k + 1) ∧
      supply n :: idsOf (x (n + 1)).1 = upcoming supply n (k + 1) := by
  obtain ⟨hcount, hids⟩ := h (n + 1)
  refine ⟨by omega, ?_⟩
  rw [upcoming_succ, hids]

/-- A draft that draws its identifier after those of its contents. -/
theorem Draws.after {idsOf : α → List String} {k : Nat} {x : Drawing α}
    (h : Draws supply List.Perm idsOf k x) (n : Nat) :
    (x n).2 + 1 = n + (k + 1) ∧
      (supply (x n).2 :: idsOf (x n).1).Perm (upcoming supply n (k + 1)) := by
  obtain ⟨hcount, hids⟩ := h n
  refine ⟨by omega, ?_⟩
  rw [hcount, upcoming_concat]
  exact (hids.cons _).trans (List.perm_append_singleton _ _).symm

end

/-! ### What is drawn for a tree -/

section

variable (supply : Nat → String)

/-- **A relabelled tree has the next identifiers of the supply**, one for each draft and parents
first. This is the order of the walk, so the two lists are equal. -/
theorem draws_relabel (draft : Draft) :
    Draws supply Eq ids draft.walk.length (relabel supply draft) := by
  induction draft with
  | bool | int | fixed | enumeration | optionalUnset | arrayUnset | enumArray | pointer =>
      exact fun n => ⟨rfl, rfl⟩
  | optional id name inner ih => exact ih.before
  | array id name minLength maxLength item ih => exact ih.before
  | object id name fields ih =>
      have hfields := draws_mapM rfl (congrArg₂ _) ih
      intro n
      obtain ⟨hcount, hids⟩ := hfields.before n
      rw [← relabelList_eq] at hcount hids
      rw [walk_object, List.length_cons, List.length_flatMap]
      refine ⟨hcount, ?_⟩
      rw [relabel_object, ids_object, hids]
  | union id name discriminatorName options variants ih =>
      have hentry : ∀ entry ∈ variants, Draws supply Eq (fun drawn => drawn.2.flatMap ids)
          (entry.2.map fun field => field.walk.length).sum
          (do return (entry.1, ← entry.2.mapM (relabel supply)) : Drawing (String × List Draft)) :=
        fun entry hentry => draws_mapM rfl (congrArg₂ _) (ih entry hentry)
      have hvariants := draws_mapM rfl (congrArg₂ _) hentry
      intro n
      obtain ⟨hcount, hids⟩ := hvariants.before n
      rw [← relabelVariants_eq] at hcount hids
      rw [walk_union, List.length_cons, List.length_flatMap]
      simp only [List.length_flatMap]
      refine ⟨hcount, ?_⟩
      rw [relabel_union, ids_union, hids]

/-- **The draft of a valid node has the next identifiers of the supply**, one for each node of the
walk. A draft comes after its contents here, so the two lists have the same members in another
order. -/
theorem draws_drawNode {node : Node} (h : node.Valid) :
    Draws supply List.Perm ids node.walk.length (drawNode supply node) := by
  induction node with
  | bool | int | fixed | enumeration | enumArray | pointer => exact fun n => ⟨rfl, .refl _⟩
  | optional name inner ih => exact (ih (Node.valid_optional_iff.1 h)).after
  | array name minLength maxLength item ih => exact (ih (Node.valid_array_iff.1 h).2).after
  | object name fields ih =>
      have hvalid := (Node.valid_object_iff.1 h).2
      have hfields := draws_mapM (.refl _) List.Perm.append fun field hfield =>
        ih field hfield (hvalid field hfield)
      intro n
      obtain ⟨hcount, hids⟩ := hfields.after n
      rw [Node.walk_object, List.length_cons, List.length_flatMap, drawNode_object, ids_object]
      exact ⟨hcount, hids⟩
  | union name discriminator variants ih =>
      obtain ⟨⟨-, hoptions⟩, -, hvalid⟩ := Node.valid_union_iff.1 h
      have hfield := Entries.forall_mem_getD fun entry hentry field hfield =>
        ih entry hentry field hfield ((hvalid entry hentry).2 field hfield)
      have hoption : ∀ option ∈ discriminator.options,
          Draws supply List.Perm (fun drawn => drawn.2.flatMap ids)
            (((Entries.get? variants option).getD []).map fun field => field.walk.length).sum
            (drawVariant supply variants option) :=
        fun option _ => draws_mapM (.refl _) List.Perm.append (hfield option)
      have hvariants := draws_mapM (.refl _) List.Perm.append hoption
      intro n
      obtain ⟨hcount, hids⟩ := hvariants.after n
      -- With distinct options no variant that is drawn is overwritten.
      have hkeys := keys_drawVariant supply variants discriminator.options n
      rw [Node.walk_union, List.length_cons, List.length_flatMap, drawNode_union, ids_union,
        Entries.ofList_of_nodup (hkeys.symm ▸ hoptions)]
      simp only [List.length_flatMap]
      exact ⟨hcount, hids⟩

end

/-! ### Copies, and drafts of nodes -/

/-- **Identifiers are drawn for every draft of a tree, and nothing else is new.**

A copy draws one identifier for each draft, whether the variant that holds it is one of the options
or not, and its walk has them in the order in which they are drawn.  The copy is the original but
for its identifiers.  If the drawn identifiers are distinct and none of them is in use, then those
of the copy are distinct and none of them is in use.

The draft of a valid node draws one identifier for each node of the walk.  The drafts of its walk
are those of the nodes, one by one, and their identifiers are the drawn ones, each of which is used
once. -/
theorem walk_ids_of_duplicate_and_ofNode (supply : Nat → String) :
    (∀ draft : Draft,
      (relabel supply draft 0).2 = draft.walk.length ∧
      (draft.duplicate supply).walk.map id = upcoming supply 0 draft.walk.length ∧
      (draft.duplicate supply).walk.map cleared = draft.walk.map cleared ∧
      (draft.duplicate supply).cleared = draft.cleared ∧
      (draft.duplicate supply).withoutIds = draft.withoutIds ∧
      ((upcoming supply 0 draft.walk.length).Nodup →
        (upcoming supply 0 draft.walk.length).Disjoint (draft.walk.map id) →
        ((draft.duplicate supply).walk.map id).Nodup ∧
          ((draft.duplicate supply).walk.map id).Disjoint (draft.walk.map id))) ∧
    ∀ node : Node, node.validate = .ok () →
      (drawNode supply node 0).2 = node.walk.length ∧
      (ofNode supply node).walk.map cleared = node.walk.map bare ∧
      ((ofNode supply node).walk.map id).Perm (upcoming supply 0 node.walk.length) ∧
      ((upcoming supply 0 node.walk.length).Nodup → ((ofNode supply node).walk.map id).Nodup) := by
  refine ⟨fun draft => ?_, fun node hvalidate => ?_⟩
  · obtain ⟨hcount, hids⟩ := draws_relabel supply draft 0
    have hcleared : (draft.duplicate supply).cleared = draft.cleared := cleared_relabel draft 0
    rw [ids_eq] at hids
    refine ⟨hcount.trans (Nat.zero_add _), hids, ?_, hcleared, ?_, ?_⟩
    · rw [← walk_cleared, hcleared, walk_cleared]
    · rw [withoutIds_eq, hcleared, withoutIds_eq]
    · rw [← hids]
      exact And.intro
  · have hvalid : node.Valid := Node.validate_eq_ok_iff.1 hvalidate
    obtain ⟨hcount, hids⟩ := draws_drawNode supply hvalid 0
    rw [ids_eq] at hids
    refine ⟨hcount.trans (Nat.zero_add _), ?_, hids, hids.nodup_iff.2⟩
    rw [← walk_cleared, ofNode, cleared_drawNode, walk_bare hvalid]

/-- A stop with a variant that is not among its options, and a pier that holds nothing. -/
def strayStop : Draft :=
  union "a" "stop" (some "kind") (some ["sea"])
    [("sea", [optional "b" "pier" none]),
      ("air", [array "c" "gates" none (some 9) (some (object "d" "gate" [bool "e" "open"]))])]

/-- A stop whose variants are stored in another order than its options. -/
def orderedStop : Node :=
  .union "stop" ⟨"kind", ["air", "sea"]⟩
    [("sea", [.optional "pier" (.bool "open")]), ("air", [.array "gates" 0 9 (.int "gate" 1 99)])]

/-- With the numbers as supply, a copy of the stray stop has five identifiers, those of its stray
variant included, and the draft of the other stop has five distinct ones. -/
theorem walk_ids_of_duplicate_and_ofNode_strayStop :
    (upcoming toString 0 strayStop.walk.length).Nodup ∧
    (upcoming toString 0 strayStop.walk.length).Disjoint (strayStop.walk.map id) ∧
    (strayStop.duplicate toString).walk.map id = ["0", "1", "2", "3", "4"] ∧
    ((strayStop.duplicate toString).walk.map id).Nodup ∧
    ((strayStop.duplicate toString).walk.map id).Disjoint (strayStop.walk.map id) ∧
    orderedStop.validate = .ok () ∧ (upcoming toString 0 orderedStop.walk.length).Nodup ∧
    (drawNode toString orderedStop 0).2 = 5 ∧
    ((ofNode toString orderedStop).walk.map id).Nodup := by
  obtain ⟨hcopies, hnodes⟩ := walk_ids_of_duplicate_and_ofNode toString
  obtain ⟨-, hids, -, -, -, hcopy⟩ := hcopies strayStop
  have hnodup : (upcoming toString 0 strayStop.walk.length).Nodup := by decide
  have hunused : ∀ id ∈ upcoming toString 0 strayStop.walk.length,
      id ∉ strayStop.walk.map Draft.id := by decide
  have hdisjoint :
      (upcoming toString 0 strayStop.walk.length).Disjoint (strayStop.walk.map id) :=
    List.disjoint_left.2 hunused
  have hvalid : orderedStop.validate = .ok () := eq_ok_of_toOption (by decide)
  have hnodup' : (upcoming toString 0 orderedStop.walk.length).Nodup := by decide
  obtain ⟨hcount, -, -, hdistinct⟩ := hnodes orderedStop hvalid
  exact ⟨hnodup, hdisjoint, hids.trans (by decide), (hcopy hnodup hdisjoint).1,
    (hcopy hnodup hdisjoint).2, hvalid, hnodup', hcount, hdistinct hnodup'⟩

end Draft

end FieldGrammar
