import Mathlib
import FieldGrammar.Draft.Conversion
import FieldGrammar.Proofs.Drafts
import FieldGrammar.Proofs.VariantOrder

/-!
# Drafts and nodes, there and back

A draft describes a node by filling what it leaves unset, and the draft of a node leaves nothing
unset.  Both ask for the variants of the options and for no others, in the order of the options,
so one conversion after the other changes little.

**From drafts.**  Once fallbacks have been filled in there is nothing left for fallbacks to fill:
the node that a draft describes comes back as it is.  This holds of any draft.  Variants without an
option are gone after the first conversion, options without a variant have an empty one, and an
option that repeats has one variant.

**From nodes, and from complete drafts.**  A union whose variants are those of its options keeps
all of them.  They come back in the order of the options, which is the only difference, and one
that comparison does not see.

Conversion draws new identifiers for drafts; nodes do not have any, and drafts are compared
without theirs.

## Main definitions

* `Node.KeyedByOptions` — unions whose variants are those of their options

## Main statements

* `Draft.toNode_union`, `Draft.bare_union` — the conversions of unions
* `Draft.cleared_drawNode`, `Draft.toNode_ofNode`, `Draft.withoutIds_ofNode` — identifiers do not
  matter
* `Draft.toNode_bare_toNode` — from drafts
* `Node.rearranged_toNode_bare` — from nodes
* `Draft.Complete.rearranged_bare_toNode` — from complete drafts
* `Draft.conversions_inverse` — all of these
-/

namespace FieldGrammar

namespace Draft

section

variable (fallbacks : Fallbacks)

/-! ### Level by level -/

theorem toNodes_eq (fields : List Draft) :
    toNodes fallbacks fields = fields.map (toNode fallbacks) := by
  induction fields with
  | nil => rfl
  | cons field rest ih => rw [toNodes, ih, List.map_cons]

/-- Looking a variant up and converting it is converting it where it stands. -/
theorem toNodesAt_eq (variants : Entries (List Draft)) (option : String) :
    toNodesAt fallbacks variants option =
      ((Entries.get? variants option).getD []).map (toNode fallbacks) :=
  Entries.search_getD_eq (f := (toNodesAt fallbacks · option)) rfl
    (fun _ _ _ => by rw [toNodesAt, toNodes_eq]) variants

theorem bareList_eq (fields : List Node) : bareList fields = fields.map bare := by
  induction fields with
  | nil => rfl
  | cons field rest ih => rw [bareList, ih, List.map_cons]

/-- Looking a variant up and drafting it is drafting it where it stands. -/
theorem bareAt_eq (variants : Entries (List Node)) (option : String) :
    bareAt variants option = ((Entries.get? variants option).getD []).map bare :=
  Entries.search_getD_eq (f := (bareAt · option)) rfl
    (fun _ _ _ => by rw [bareAt, bareList_eq]) variants

theorem toNode_object (id name : String) (fields : List Draft) :
    toNode fallbacks (object id name fields) = .object name (fields.map (toNode fallbacks)) := by
  rw [toNode, toNodes_eq]

theorem bare_object (name : String) (fields : List Node) :
    bare (.object name fields) = object "" name (fields.map bare) := by
  rw [bare, bareList_eq]

@[simp] theorem options_enumerationOf (name : String) (options : Option (List String)) :
    (enumerationOf fallbacks name options).options = options.getD fallbacks.options := rfl

/-- A union has one variant for each of its options, whatever variants the draft has. -/
theorem toNode_union (id name : String) (discriminatorName : Option String)
    (options : Option (List String)) (variants : Entries (List Draft)) :
    toNode fallbacks (union id name discriminatorName options variants) =
      .union name
        (enumerationOf fallbacks (discriminatorName.getD fallbacks.discriminatorName) options)
        ((options.getD fallbacks.options).eraseDups.map fun option =>
          (option, ((Entries.get? variants option).getD []).map (toNode fallbacks))) := by
  rw [toNode]
  simp only [toNodesAt_eq, options_enumerationOf]
  rw [Entries.ofList_map_self]

/-- The bare draft of a union has one variant for each of its options, whatever variants the union
has.  An option that repeats gets one variant, as a map has no repeated names. -/
theorem bare_union (name : String) (discriminator : Enumeration) (variants : Entries (List Node)) :
    bare (.union name discriminator variants) =
      union "" name (some discriminator.name) (some discriminator.options)
        (discriminator.options.eraseDups.map fun option =>
          (option, ((Entries.get? variants option).getD []).map bare)) := by
  rw [bare]
  simp only [bareAt_eq]
  rw [Entries.ofList_map_self]

/-- The union of a draft that came from a union. -/
theorem toNode_bare_union (name : String) (discriminator : Enumeration)
    (variants : Entries (List Node)) :
    toNode fallbacks (bare (.union name discriminator variants)) =
      .union name discriminator (discriminator.options.eraseDups.map fun option =>
        (option, ((Entries.get? variants option).getD []).map fun field =>
          toNode fallbacks (bare field))) := by
  rw [bare_union, toNode_union, Option.getD_some, Option.getD_some, Entries.map_getD_map_self]
  simp only [List.map_map, Function.comp_def]
  rfl

/-- The draft of a union that came from a draft with options. -/
theorem bare_toNode_union (id name discriminatorName : String) (options : List String)
    (variants : Entries (List Draft)) :
    bare (toNode fallbacks (union id name (some discriminatorName) (some options) variants)) =
      union "" name (some discriminatorName) (some options) (options.eraseDups.map fun option =>
        (option, ((Entries.get? variants option).getD []).map fun field =>
          bare (toNode fallbacks field))) := by
  rw [toNode_union, bare_union, options_enumerationOf, Option.getD_some, Option.getD_some,
    Entries.map_getD_map_self]
  simp only [List.map_map, Function.comp_def]
  rfl

/-! ### Identifiers -/

/-- The node of a draft does not depend on identifiers. -/
theorem toNode_cleared (draft : Draft) :
    toNode fallbacks draft.cleared = toNode fallbacks draft := by
  induction draft with
  | bool | int | fixed | enumeration | optionalUnset | arrayUnset | enumArray | pointer => rfl
  | optional id name inner ih => rw [cleared, toNode, toNode, ih]
  | array id name minLength maxLength item ih => rw [cleared, toNode, toNode, ih]
  | object id name fields ih =>
      rw [cleared_object, toNode_object, toNode_object, List.map_map]
      exact congrArg _ (List.map_congr_left ih)
  | union id name discriminatorName options variants ih =>
      rw [cleared_union, toNode_union, toNode_union]
      refine congrArg _ (List.map_congr_left fun option _ => ?_)
      rw [Entries.getD_map_snd, List.map_map]
      exact congrArg _ (List.map_congr_left (Entries.forall_mem_getD ih option))

variable (supply : Nat → String)

theorem drawNodes_eq (fields : List Node) :
    drawNodes supply fields = fields.mapM (drawNode supply) := by
  induction fields with
  | nil => rw [List.mapM_nil]; rfl
  | cons field rest ih => rw [List.mapM_cons, ← ih]; rfl

/-- Looking a variant up and drawing it is drawing it where it stands. -/
theorem drawNodesAt_eq (variants : Entries (List Node)) (option : String) :
    drawNodesAt supply variants option =
      ((Entries.get? variants option).getD []).mapM (drawNode supply) :=
  Entries.search_getD_eq (f := (drawNodesAt supply · option))
    (by rw [drawNodesAt, List.mapM_nil])
    (fun _ _ _ => by rw [drawNodesAt, drawNodes_eq]) variants

/-- The drafts of an object are drawn field by field, and its own identifier comes last. -/
theorem drawNode_object (name : String) (fields : List Node) (n : Nat) :
    drawNode supply (.object name fields) n =
      let drawn := fields.mapM (drawNode supply) n
      (object (supply drawn.2) name drawn.1, drawn.2 + 1) := by
  rw [drawNode, drawNodes_eq]
  rfl

/-- The draft of a variant with its name, as a union draws it. -/
def drawVariant (variants : Entries (List Node)) (option : String) :
    Drawing (String × List Draft) := do
  return (option, ← ((Entries.get? variants option).getD []).mapM (drawNode supply))

/-- The draft of a union is drawn option by option, and its own identifier comes last. -/
theorem drawNode_union (name : String) (discriminator : Enumeration)
    (variants : Entries (List Node)) (n : Nat) :
    drawNode supply (.union name discriminator variants) n =
      let drawn := discriminator.options.mapM (drawVariant supply variants) n
      (union (supply drawn.2) name (some discriminator.name) (some discriminator.options)
        (Entries.ofList drawn.1), drawn.2 + 1) := by
  rw [drawNode]
  simp only [drawNodesAt_eq]
  rfl

/-- Variants are drawn under the names of the options. -/
theorem keys_drawVariant (variants : Entries (List Node)) (options : List String) (n : Nat) :
    Entries.keys (options.mapM (drawVariant supply variants) n).1 = options := by
  have hnames : ∀ option ∈ options, ∀ n, (drawVariant supply variants option n).1.1 = option :=
    fun _ _ _ => rfl
  exact (map_mapM hnames n).trans (List.map_id' options)

/-- The draft of a node is the bare one, apart from its identifiers.  So the identifiers are
followed in one place and the attributes in another. -/
theorem cleared_drawNode (node : Node) (n : Nat) :
    (drawNode supply node n).1.cleared = bare node := by
  induction node generalizing n with
  | bool | int | fixed | enumeration | enumArray | pointer => rfl
  | optional name inner ih =>
      show (optional _ name (some (drawNode supply inner n).1)).cleared = _
      rw [cleared, ih, bare]
  | array name minLength maxLength item ih =>
      show (array _ name _ _ (some (drawNode supply item n).1)).cleared = _
      rw [cleared, ih, bare]
  | object name fields ih =>
      rw [drawNode_object, cleared_object, map_mapM ih, bare_object]
  | union name discriminator variants ih =>
      have hvariants : (discriminator.options.mapM (drawVariant supply variants) n).1.map
          (fun pair => (pair.1, pair.2.map cleared)) = discriminator.options.map fun option =>
            (option, ((Entries.get? variants option).getD []).map bare) := by
        refine map_mapM (fun option _ n => ?_) n
        exact congrArg (option, ·) (map_mapM (Entries.forall_mem_getD ih option) n)
      rw [drawNode_union, cleared_union, ← Entries.ofList_map_snd, hvariants,
        Entries.ofList_map_self, bare_union]

theorem toNode_ofNode (node : Node) :
    toNode fallbacks (ofNode supply node) = toNode fallbacks (bare node) := by
  rw [ofNode, ← toNode_cleared, cleared_drawNode]

/-- Without its identifiers the draft of a node is the bare one, whatever the supply was. -/
theorem withoutIds_ofNode (node : Node) : (ofNode supply node).withoutIds = bare node := by
  rw [withoutIds_eq, ofNode, cleared_drawNode]

/-! ### From drafts to nodes and back -/

/-- **What a draft describes comes back as it is**, whatever the fallbacks are by then.  The draft
of a node leaves nothing unset, so the second conversion has no use for them. -/
theorem toNode_bare_toNode (fallbacks' : Fallbacks) (draft : Draft) :
    toNode fallbacks' (bare (toNode fallbacks draft)) = toNode fallbacks draft := by
  induction draft with
  -- What stands in for an unset inner field or item holds no other fields.
  | bool | int | fixed | enumeration | optionalUnset | arrayUnset | enumArray | pointer => rfl
  | optional id name inner ih => rw [toNode, bare, toNode, ih]
  | array id name minLength maxLength item ih =>
      rw [toNode, bare, toNode, ih, Option.getD_some, Option.getD_some]
  | object id name fields ih =>
      rw [toNode_object, bare_object, toNode_object, List.map_map, List.map_map]
      exact congrArg _ (List.map_congr_left ih)
  | union id name discriminatorName options variants ih =>
      rw [toNode_union, toNode_bare_union, options_enumerationOf, Entries.map_getD_map_self]
      refine congrArg _ (List.map_congr_left fun option _ => ?_)
      rw [List.map_map]
      exact congrArg _ (List.map_congr_left (Entries.forall_mem_getD ih option))

/-- **A complete draft comes back with empty identifiers and with its variants in the order of the
options**, and otherwise as it is. -/
theorem Complete.rearranged_bare_toNode {draft : Draft} (h : draft.Complete) :
    Rearranged (bare (toNode fallbacks draft)) draft.cleared := by
  induction h with
  | bool | int | fixed | enumeration | enumArray | pointer => exact .refl _
  | optional id name _ ih =>
      rw [toNode, bare, Draft.cleared]
      exact .optional "" name ih
  | array id name minLength maxLength _ ih =>
      rw [toNode, bare, Draft.cleared]
      exact .array "" name _ _ ih
  | object id name _ ih =>
      rw [toNode_object, bare_object, cleared_object, List.map_map]
      exact .object "" name (List.forall₂_map_left_iff.2
        (List.forall₂_map_right_iff.2 (List.forall₂_same.2 ih)))
  | @union id name discriminatorName options variants hkeyed _ ih =>
      rw [bare_toNode_union, cleared_union]
      -- Variants in the order of the options correspond one by one; that they are all is `hkeyed`.
      refine .union "" name _ _ ?_ (hkeyed.map_getD_perm.map _)
      rw [List.map_map, List.forall₂_map_left_iff, List.forall₂_map_right_iff, List.forall₂_same]
      intro option _
      refine .fields option (List.forall₂_map_left_iff.2
        (List.forall₂_map_right_iff.2 (List.forall₂_same.2 ?_)))
      exact Entries.forall_mem_getD ih option

end

end Draft

/-! ### From nodes to drafts and back -/

namespace Node

/-- The variants of a union are those of its options.  Options may repeat.  A valid node has this
and more; for the way from nodes to drafts and back it is enough. -/
def KeyedByOptions : Node → Prop
  | union _ discriminator variants => Entries.KeyedBy variants discriminator.options
  | _ => True

instance : DecidablePred KeyedByOptions
  | union _ discriminator variants =>
    inferInstanceAs (Decidable (Entries.KeyedBy variants discriminator.options))
  | bool .. | int .. | fixed .. | enumeration .. | optional .. | array .. | enumArray ..
  | object .. | pointer .. => isTrue trivial

/-- Valid nodes have a variant for each option and no other. -/
theorem Valid.keyedByOptions {node : Node} (h : node.Valid) :
    ∀ m ∈ node.walk, m.KeyedByOptions := by
  intro m hm
  have hvalid : m.Valid := h.of_mem_walk hm
  cases m with
  | union name discriminator variants =>
      obtain ⟨⟨-, hoptions⟩, hperm, -⟩ := valid_union_iff.1 hvalid
      exact ⟨hperm.nodup_iff.2 hoptions, fun key => hperm.mem_iff⟩
  | bool | int | fixed | enumeration | optional | array | enumArray | object | pointer =>
      exact trivial

/-- Each stored field of a union keyed by its options is a child, so it inherits what holds along
the walk. -/
theorem keyed_union {name : String} {discriminator : Enumeration} {variants : Entries (List Node)}
    (h : ∀ m ∈ (union name discriminator variants).walk, m.KeyedByOptions) :
    variants.KeyedBy discriminator.options ∧
      ∀ entry ∈ variants, ∀ field ∈ entry.2, ∀ m ∈ field.walk, m.KeyedByOptions := by
  obtain ⟨hself, hchildren⟩ := forall_mem_walk_iff.1 h
  obtain ⟨hkeys, hoptions⟩ : variants.KeyedBy discriminator.options := hself
  refine ⟨⟨hkeys, hoptions⟩, fun entry hentry field hfield => ?_⟩
  have hoption : entry.1 ∈ discriminator.options :=
    (hoptions entry.1).1 (List.mem_map_of_mem hentry)
  refine hchildren field (mem_children_union.2 ⟨entry.1, hoption, ?_⟩)
  rwa [(Entries.get?_eq_some_iff hkeys).2 hentry, Option.getD_some]

/-- **A node whose unions are keyed by their options comes back with its variants in the order of
the options**, and otherwise as it is. -/
theorem rearranged_toNode_bare (fallbacks : Fallbacks) {node : Node}
    (h : ∀ m ∈ node.walk, m.KeyedByOptions) :
    Rearranged (Draft.toNode fallbacks (Draft.bare node)) node := by
  induction node with
  | bool | int | fixed | enumeration | enumArray | pointer => exact .refl _
  | optional name inner ih =>
      obtain ⟨-, hchildren⟩ := forall_mem_walk_iff.1 h
      rw [Draft.bare, Draft.toNode]
      exact .optional name (ih (hchildren inner List.mem_cons_self))
  | array name minLength maxLength item ih =>
      obtain ⟨-, hchildren⟩ := forall_mem_walk_iff.1 h
      rw [Draft.bare, Draft.toNode]
      exact .array name minLength maxLength (ih (hchildren item List.mem_cons_self))
  | object name fields ih =>
      obtain ⟨-, hchildren⟩ := forall_mem_walk_iff.1 h
      rw [Draft.bare_object, Draft.toNode_object, List.map_map]
      refine .object name (List.forall₂_map_left_iff.2 (List.forall₂_same.2 fun field hfield => ?_))
      exact ih field hfield (hchildren field hfield)
  | union name discriminator variants ih =>
      obtain ⟨hkeyed, hvariants⟩ := keyed_union h
      rw [Draft.toNode_bare_union]
      refine .union name discriminator ?_ hkeyed.map_getD_perm
      rw [List.forall₂_map_left_iff, List.forall₂_map_right_iff, List.forall₂_same]
      intro option _
      refine .fields option (List.forall₂_map_left_iff.2 (List.forall₂_same.2 ?_))
      exact Entries.forall_mem_getD (fun entry hentry field hfield =>
        ih entry hentry field hfield (hvariants entry hentry field hfield)) option

/-- Variants in another order are the same as those before, since each of them finds its own name
there. -/
theorem sameVariants_of_rearranged {variants stored others : Entries (List Node)}
    (h : List.Forall₂ RearrangedVariant variants stored) (hperm : stored.Perm others)
    (hkeys : (Entries.keys others).Nodup)
    (hsame : ∀ entry ∈ others, ∀ field ∈ entry.2, ∀ node, Rearranged node field →
      node.same field = true) : sameVariants variants others = true := by
  have hrelated : List.Forall₂ (fun a b => a.1 = b.1 ∧ List.Forall₂ Rearranged a.2 b.2)
      variants stored := h.imp fun a b hab => by
    cases hab with
    | fields key hfields => exact ⟨rfl, hfields⟩
  refine sameVariants_iff.2 fun entry hentry => ?_
  obtain ⟨fields, hmem, hget, hfields⟩ :=
    Entries.exists_get?_of_forall₂ hrelated hperm hkeys hentry
  exact ⟨fields, hget, sameList_iff.2 (forall₂_imp_of_mem hfields (hsame _ hmem))⟩

/-- **Rearranged nodes are the same**, unless a number in them is not even the same as itself.
Comparison looks variants up by name, so that it does not see their order. -/
theorem Rearranged.same_of_keyed {node node' : Node} (h : Rearranged node node')
    (hkeyed : ∀ m ∈ node'.walk, m.KeyedByOptions) (hself : node'.same node' = true) :
    node.same node' = true := by
  induction node' generalizing node with
  | bool | int | fixed | enumeration | enumArray | pointer =>
      cases h
      exact hself
  | optional name inner ih =>
      obtain ⟨-, hchildren⟩ := forall_mem_walk_iff.1 hkeyed
      cases h with
      | refl => exact hself
      | optional _ h =>
          simp only [same, Bool.and_eq_true] at hself ⊢
          exact ⟨hself.1, ih h (hchildren inner List.mem_cons_self) hself.2⟩
  | array name minLength maxLength item ih =>
      obtain ⟨-, hchildren⟩ := forall_mem_walk_iff.1 hkeyed
      cases h with
      | refl => exact hself
      | array _ _ _ h =>
          simp only [same, Bool.and_eq_true] at hself ⊢
          exact ⟨hself.1, ih h (hchildren item List.mem_cons_self) hself.2⟩
  | object name fields ih =>
      obtain ⟨-, hchildren⟩ := forall_mem_walk_iff.1 hkeyed
      cases h with
      | refl => exact hself
      | object _ h =>
          simp only [same, Bool.and_eq_true, sameList_iff] at hself ⊢
          refine ⟨hself.1, forall₂_imp_of_mem h fun field hfield node hnode => ?_⟩
          exact ih field hfield hnode (hchildren field hfield)
            (List.forall₂_same.1 hself.2 field hfield)
  | union name discriminator variants ih =>
      obtain ⟨⟨hkeys, -⟩, hvariants⟩ := keyed_union hkeyed
      cases h with
      | refl => exact hself
      | union _ _ h hperm =>
          simp only [same, Bool.and_eq_true] at hself ⊢
          obtain ⟨⟨hattributes, -⟩, hfields⟩ := hself
          refine ⟨⟨hattributes, beq_iff_eq.2 (h.length_eq.trans hperm.length_eq)⟩, ?_⟩
          refine sameVariants_of_rearranged h hperm hkeys fun entry hentry field hfield node
            hnode => ?_
          exact ih entry hentry field hfield hnode (hvariants entry hentry field hfield)
            (same_of_sameVariants_self hkeys hfields entry hentry field hfield)

end Node

/-! ### Round trips -/

namespace Draft

/-- **Conversions are inverse to each other**, up to fallbacks and identifiers.

A draft, whatever it leaves unset, describes a node that goes to a draft and back as it is, under
any fallbacks; so a second draft of it differs from the first one in identifiers only.  A node whose
unions are keyed by their options goes to a draft and back, and a complete draft goes to a node and
back but for its identifiers: only the order in which unions store their variants may change, so
what is the same as itself is the same as before. -/
theorem conversions_inverse (supply supply' : Nat → String) (fallbacks fallbacks' : Fallbacks) :
    (∀ draft : Draft,
      toNode fallbacks' (ofNode supply (toNode fallbacks draft)) = toNode fallbacks draft ∧
      (ofNode supply' (toNode fallbacks'
        (ofNode supply (toNode fallbacks draft)))).withoutIds =
          (ofNode supply (toNode fallbacks draft)).withoutIds) ∧
    (∀ node : Node, (∀ m ∈ node.walk, m.KeyedByOptions) →
      (toNode fallbacks' (ofNode supply node)).Rearranged node ∧
      (node.same node = true → (toNode fallbacks' (ofNode supply node)).same node = true)) ∧
    ∀ draft : Draft, draft.Complete →
      (ofNode supply (toNode fallbacks draft)).withoutIds.Rearranged draft.withoutIds ∧
      (draft.withoutIds.same draft.withoutIds = true →
        (ofNode supply (toNode fallbacks draft)).withoutIds.same draft.withoutIds = true) := by
  refine ⟨fun draft => ?_, fun node hkeyed => ?_, fun draft hcomplete => ?_⟩
  · have hback : toNode fallbacks' (ofNode supply (toNode fallbacks draft)) =
        toNode fallbacks draft := by
      rw [toNode_ofNode, toNode_bare_toNode]
    refine ⟨hback, ?_⟩
    rw [hback, withoutIds_ofNode, withoutIds_ofNode]
  · rw [toNode_ofNode]
    have hback := Node.rearranged_toNode_bare fallbacks' hkeyed
    exact ⟨hback, hback.same_of_keyed hkeyed⟩
  · rw [withoutIds_ofNode, withoutIds_eq]
    have hback := hcomplete.rearranged_bare_toNode fallbacks
    exact ⟨hback, hback.same_of_complete hcomplete.cleared⟩

/-- The legs of a trip.  One option is given twice, and the variants are stored in another order. -/
def legs : Node :=
  .array "legs" 0 9 (.union "leg" ⟨"kind", ["road", "sea", "road"]⟩
    [("sea", [.optional "next" (.pointer "next" "legs")]), ("road", [.int "miles" 1 900])])

/-- The same legs while they are edited. -/
def editedLegs : Draft :=
  array "a" "legs" (some 0) (some 9) (some (union "b" "leg" (some "kind")
    (some ["road", "sea", "road"])
    [("sea", [optional "c" "next" (some (pointer "d" "next" (some "legs")))]),
      ("road", [int "e" "miles" (some 1) (some 900)])]))

/-- A leg without options, with a field for one fallback option and one for none. -/
def unsetLeg : Draft :=
  union "a" "leg" none none
    [("option2", [array "b" "stops" none (some 3) none]), ("option3", [bool "c" "late"])]

/-- A leg without options takes the fallback ones and keeps them under other fallbacks; the legs
come back with repeated options and reordered variants. -/
theorem conversions_inverse_legs :
    toNode (Fallbacks.withIntBounds {} 1 7) (ofNode toString (toNode {} unsetLeg)) =
      .union "leg" ⟨"type", ["option1", "option2"]⟩
        [("option1", []), ("option2", [.array "stops" 0 3 (.int "item" 0 100)])] ∧
    (∀ m ∈ legs.walk, m.KeyedByOptions) ∧ legs.same legs = true ∧
    (toNode (Fallbacks.withIntBounds {} 1 7) (ofNode toString legs)).same legs = true ∧
    editedLegs.Complete ∧ editedLegs.withoutIds.same editedLegs.withoutIds = true ∧
    (ofNode toString (toNode {} editedLegs)).withoutIds.same editedLegs.withoutIds = true := by
  have hkeyed : ∀ m ∈ legs.walk, m.KeyedByOptions := by decide
  have hcomplete : editedLegs.Complete := by
    refine .array _ _ _ _ (.union _ _ _ (by decide) ?_)
    simp only [List.forall_mem_cons, List.not_mem_nil, false_implies, implies_true, and_true]
    exact ⟨.optional _ _ (.pointer _ _ _), .int _ _ _ _⟩
  obtain ⟨hdrafts, hnodes, hcompletes⟩ :=
    conversions_inverse toString toString {} (Fallbacks.withIntBounds {} 1 7)
  have hsame : legs.same legs = true := by decide +kernel
  have hsame' : editedLegs.withoutIds.same editedLegs.withoutIds = true := by decide +kernel
  exact ⟨(hdrafts unsetLeg).1, hkeyed, hsame, (hnodes legs hkeyed).2 hsame, hcomplete, hsame',
    (hcompletes editedLegs hcomplete).2 hsame'⟩

end Draft

end FieldGrammar
