import Mathlib
import FieldGrammar.Draft.Basic
import FieldGrammar.Proofs.Sameness

/-!
# Trees of drafts

What holds of a whole tree of drafts is shown by induction over its constructors.  What an optional
or an array holds may be unset, which is a case of its own.

**Identifiers.**  They are drawn one after the other, so a draft is relabelled under a count that
depends on everything before it.  Its attributes do not: `Draft.cleared` empties the identifiers
without drawing any, and a relabelled draft is the draft that was there, once both are cleared.

**Complete drafts.**  A draft is complete when nothing is left to fallbacks and every union has
the variants of its options.  Two drafts that differ only in the order in which unions store their
variants are the same, if one of them is complete.

## Main definitions

* `Draft.cleared` — the draft with empty identifiers
* `Draft.Complete` — every attribute is set
* `Draft.Rearranged` — two drafts that differ in the order of variants

## Main statements

* `Draft.induction` — the induction over trees
* `Draft.cleared_relabel` — new identifiers change nothing else
* `Draft.withoutIds_eq` — relabelling from a supply of empty identifiers clears
* `Draft.sameList_iff`, `Draft.sameVariants_iff` — comparing part by part
* `Draft.Rearranged.same_of_complete` — rearranged drafts are the same
-/

namespace FieldGrammar

namespace Draft

/-! ### Induction -/

/-- A property holds of every draft if each kind inherits it from the drafts that it contains. -/
@[elab_as_elim, induction_eliminator]
theorem induction {P : Draft → Prop}
    (bool : ∀ id name, P (.bool id name))
    (int : ∀ id name min max, P (.int id name min max))
    (fixed : ∀ id name min max precision, P (.fixed id name min max precision))
    (enumeration : ∀ id name options, P (.enumeration id name options))
    (optionalUnset : ∀ id name, P (.optional id name none))
    (optional : ∀ id name inner, P inner → P (.optional id name (some inner)))
    (arrayUnset : ∀ id name minLength maxLength, P (.array id name minLength maxLength none))
    (array : ∀ id name minLength maxLength item, P item →
      P (.array id name minLength maxLength (some item)))
    (enumArray : ∀ id name minLength maxLength enumName options,
      P (.enumArray id name minLength maxLength enumName options))
    (object : ∀ id name fields, (∀ field ∈ fields, P field) → P (.object id name fields))
    (union : ∀ id name discriminatorName options variants,
      (∀ entry ∈ variants, ∀ field ∈ entry.2, P field) →
      P (.union id name discriminatorName options variants))
    (pointer : ∀ id name target, P (.pointer id name target)) (draft : Draft) : P draft := by
  refine @Draft.rec P (fun held => ∀ draft ∈ held, P draft)
    (fun fields => ∀ field ∈ fields, P field)
    (fun variants => ∀ entry ∈ variants, ∀ field ∈ entry.2, P field)
    (fun entry => ∀ field ∈ entry.2, P field)
    bool int fixed enumeration ?_ ?_ enumArray object union pointer
    ?_ ?_ ?_ ?_ ?_ ?_ ?_ draft
  · intro id name inner hinner
    cases inner with
    | none => exact optionalUnset id name
    | some inner => exact optional id name inner (hinner inner rfl)
  · intro id name minLength maxLength item hitem
    cases item with
    | none => exact arrayUnset id name minLength maxLength
    | some item => exact array id name minLength maxLength item (hitem item rfl)
  · intro draft h
    cases h
  · intro inner hinner draft h
    cases h
    exact hinner
  · intro field h
    cases h
  · intro head tail hhead htail
    exact List.forall_mem_cons.2 ⟨hhead, htail⟩
  · intro entry h
    cases h
  · intro head tail hhead htail
    exact List.forall_mem_cons.2 ⟨hhead, htail⟩
  · intro key fields hfields
    exact hfields

/-! ### Clearing -/

mutual

/-- The draft with empty identifiers throughout.  Unlike relabelling, this is a map over the tree
without a count. -/
def cleared : Draft → Draft
  | bool _ name => bool "" name
  | int _ name min max => int "" name min max
  | fixed _ name min max precision => fixed "" name min max precision
  | enumeration _ name options => enumeration "" name options
  | optional _ name none => optional "" name none
  | optional _ name (some inner) => optional "" name (some inner.cleared)
  | array _ name minLength maxLength none => array "" name minLength maxLength none
  | array _ name minLength maxLength (some item) =>
    array "" name minLength maxLength (some item.cleared)
  | enumArray _ name minLength maxLength enumName options =>
    enumArray "" name minLength maxLength enumName options
  | object _ name fields => object "" name (clearedList fields)
  | union _ name discriminatorName options variants =>
    union "" name discriminatorName options (clearedVariants variants)
  | pointer _ name target => pointer "" name target

/-- The drafts of a list, each cleared. -/
def clearedList : List Draft → List Draft
  | [] => []
  | draft :: rest => draft.cleared :: clearedList rest

/-- The drafts of all variants, each cleared. -/
def clearedVariants : List (String × List Draft) → List (String × List Draft)
  | [] => []
  | (key, fields) :: rest => (key, clearedList fields) :: clearedVariants rest

end

theorem clearedList_eq (fields : List Draft) : clearedList fields = fields.map cleared := by
  induction fields with
  | nil => rfl
  | cons field rest ih => rw [clearedList, ih, List.map_cons]

/-- Variants are cleared where they stand.  The recursions over lists of drafts and over variants
are opened here once, and are maps from then on. -/
theorem clearedVariants_eq (variants : Entries (List Draft)) :
    clearedVariants variants = variants.map fun entry => (entry.1, entry.2.map cleared) := by
  induction variants with
  | nil => rfl
  | cons entry rest ih =>
      obtain ⟨key, fields⟩ := entry
      rw [clearedVariants, ih, clearedList_eq, List.map_cons]

theorem cleared_object (id name : String) (fields : List Draft) :
    (object id name fields).cleared = object "" name (fields.map cleared) := by
  rw [cleared, clearedList_eq]

theorem cleared_union (id name : String) (discriminatorName : Option String)
    (options : Option (List String)) (variants : Entries (List Draft)) :
    (union id name discriminatorName options variants).cleared =
      union "" name discriminatorName options
        (variants.map fun entry => (entry.1, entry.2.map cleared)) := by
  rw [cleared, clearedVariants_eq]

/-! ### Drawing -/

section

variable {α β γ : Type}

/-- A traversal draws for the first element, and for the others from the count that is reached. -/
theorem mapM_cons_apply (f : α → Drawing β) (x : α) (xs : List α) (n : Nat) :
    (x :: xs).mapM f n =
      ((f x n).1 :: (xs.mapM f (f x n).2).1, (xs.mapM f (f x n).2).2) := by
  rw [List.mapM_cons]
  rfl

/-- What does not depend on the count, element by element, does not depend on it all along a
traversal. -/
theorem map_mapM {f : α → Drawing β} {g : β → γ} {h : α → γ} {xs : List α}
    (hmap : ∀ x ∈ xs, ∀ n, g (f x n).1 = h x) (n : Nat) : (xs.mapM f n).1.map g = xs.map h := by
  induction xs generalizing n with
  | nil => rw [List.mapM_nil]; rfl
  | cons x xs ih =>
      obtain ⟨hx, hxs⟩ := List.forall_mem_cons.1 hmap
      rw [mapM_cons_apply, List.map_cons, List.map_cons, hx, ih hxs]

end

/-! ### Relabelling -/

section

variable (supply : Nat → String)

/-- A draft draws its own identifier first, so that its contents are relabelled from the next count
on.  The lemmas for the other kinds say the same. -/
theorem relabel_optional (id name : String) (inner : Draft) (n : Nat) :
    (relabel supply (optional id name (some inner)) n).1 =
      optional (supply n) name (some (relabel supply inner (n + 1)).1) := rfl

theorem relabel_array (id name : String) (minLength maxLength : Option UInt32) (item : Draft)
    (n : Nat) :
    (relabel supply (array id name minLength maxLength (some item)) n).1 =
      array (supply n) name minLength maxLength (some (relabel supply item (n + 1)).1) := rfl

theorem relabel_object (id name : String) (fields : List Draft) (n : Nat) :
    (relabel supply (object id name fields) n).1 =
      object (supply n) name (relabelList supply fields (n + 1)).1 := rfl

theorem relabel_union (id name : String) (discriminatorName : Option String)
    (options : Option (List String)) (variants : Entries (List Draft)) (n : Nat) :
    (relabel supply (union id name discriminatorName options variants) n).1 =
      union (supply n) name discriminatorName options
        (relabelVariants supply variants (n + 1)).1 := rfl

variable {supply}

theorem relabelList_eq (fields : List Draft) :
    relabelList supply fields = fields.mapM (relabel supply) := by
  induction fields with
  | nil => rw [List.mapM_nil]; rfl
  | cons field rest ih => rw [List.mapM_cons, ← ih]; rfl

/-- Relabelling variants is a traversal that keeps their names and relabels their fields. -/
theorem relabelVariants_eq (variants : Entries (List Draft)) :
    relabelVariants supply variants = variants.mapM fun entry => do
      return (entry.1, ← entry.2.mapM (relabel supply)) := by
  induction variants with
  | nil => rw [List.mapM_nil]; rfl
  | cons entry rest ih =>
      obtain ⟨key, fields⟩ := entry
      rw [List.mapM_cons, ← ih, ← relabelList_eq]
      rfl

/-- If a function takes the copy of each draft of a list to what another one makes of the draft,
whatever the count, it does so all along the list. -/
theorem map_relabelList {α : Type} {f g : Draft → α} {fields : List Draft}
    (h : ∀ field ∈ fields, ∀ n, f (relabel supply field n).1 = g field) (n : Nat) :
    (relabelList supply fields n).1.map f = fields.map g := by
  rw [relabelList_eq, map_mapM h]

/-- Variants are relabelled where they stand and keep their names. -/
theorem map_relabelVariants {α : Type} {f g : Draft → α} {variants : Entries (List Draft)}
    (h : ∀ entry ∈ variants, ∀ field ∈ entry.2, ∀ n, f (relabel supply field n).1 = g field)
    (n : Nat) :
    (relabelVariants supply variants n).1.map (fun entry => (entry.1, entry.2.map f)) =
      variants.map fun entry => (entry.1, entry.2.map g) := by
  rw [relabelVariants_eq]
  refine map_mapM (fun entry hentry n => ?_) n
  exact congrArg (entry.1, ·) (map_mapM (h entry hentry) n)

/-- **New identifiers change nothing else.**  By `map_relabelList` the counts do not have to be
followed through the tree: whatever they are, clearing forgets what was drawn. -/
theorem cleared_relabel (draft : Draft) (n : Nat) :
    (relabel supply draft n).1.cleared = draft.cleared := by
  induction draft generalizing n with
  | bool | int | fixed | enumeration | optionalUnset | arrayUnset | enumArray | pointer => rfl
  | optional id name inner ih => rw [relabel_optional, cleared, cleared, ih]
  | array id name minLength maxLength item ih => rw [relabel_array, cleared, cleared, ih]
  | object id name fields ih =>
      rw [relabel_object, cleared_object, cleared_object, map_relabelList ih]
  | union id name discriminatorName options variants ih =>
      rw [relabel_union, cleared_union, cleared_union, map_relabelVariants ih]

/-- A supply that has nothing but empty identifiers clears, whatever the count.  It is the one case
in which the drawn identifiers are known without counting. -/
theorem relabel_empty (draft : Draft) (n : Nat) :
    (relabel (fun _ => "") draft n).1 = draft.cleared := by
  induction draft generalizing n with
  | bool | int | fixed | enumeration | optionalUnset | arrayUnset | enumArray | pointer => rfl
  | optional id name inner ih => rw [relabel_optional, cleared, ih]
  | array id name minLength maxLength item ih => rw [relabel_array, cleared, ih]
  | object id name fields ih =>
      have hfields := map_relabelList (f := fun copy => copy) ih (n + 1)
      rw [relabel_object, cleared_object, ← hfields, List.map_id']
  | union id name discriminatorName options variants ih =>
      have hvariants := map_relabelVariants (f := fun copy => copy) ih (n + 1)
      rw [relabel_union, cleared_union, ← hvariants]
      simp only [List.map_id']

theorem withoutIds_eq (draft : Draft) : draft.withoutIds = draft.cleared :=
  relabel_empty draft 0

end

/-! ### Comparing part by part -/

/-- Lists are the same when their members are the same one by one. -/
theorem sameList_iff {fields others : List Draft} :
    sameList fields others = true ↔ List.Forall₂ (fun a b => same a b = true) fields others := by
  induction fields generalizing others with
  | nil => cases others <;> simp [sameList]
  | cons field rest ih => cases others <;> simp [sameList, ih]

/-- Variants are the same as others if each of them finds the same fields there. -/
theorem sameVariants_iff {variants : List (String × List Draft)} {others : Entries (List Draft)} :
    sameVariants variants others = true ↔
      ∀ entry ∈ variants, ∃ fields, Entries.get? others entry.1 = some fields ∧
        sameList entry.2 fields = true := by
  induction variants with
  | nil => simp [sameVariants]
  | cons entry rest ih =>
      obtain ⟨key, fields⟩ := entry
      rw [sameVariants, Bool.and_eq_true, ih, List.forall_mem_cons]
      refine and_congr_left fun _ => ?_
      cases Entries.get? others key <;> simp

/-- The fields of variants that are the same as themselves are the same as themselves. -/
theorem same_of_sameVariants_self {variants : Entries (List Draft)}
    (hkeys : (Entries.keys variants).Nodup) (h : sameVariants variants variants = true) :
    ∀ entry ∈ variants, ∀ field ∈ entry.2, field.same field = true := by
  intro entry hentry
  obtain ⟨fields, hget, hfields⟩ := sameVariants_iff.1 h entry hentry
  rw [(Entries.get?_eq_some_iff hkeys).2 hentry, Option.some_inj] at hget
  subst hget
  exact List.forall₂_same.1 (sameList_iff.1 hfields)

/-! ### Complete drafts -/

/-- Every attribute is set, at every level, and unions are keyed by their options. -/
inductive Complete : Draft → Prop
  | bool (id name : String) : Complete (.bool id name)
  | int (id name : String) (min max : Int64) : Complete (.int id name (some min) (some max))
  | fixed (id name : String) (min max precision : Float) :
      Complete (.fixed id name (some min) (some max) (some precision))
  | enumeration (id name : String) (options : List String) :
      Complete (.enumeration id name (some options))
  | optional (id name : String) {inner : Draft} (h : Complete inner) :
      Complete (.optional id name (some inner))
  | array (id name : String) (minLength maxLength : UInt32) {item : Draft} (h : Complete item) :
      Complete (.array id name (some minLength) (some maxLength) (some item))
  | enumArray (id name : String) (minLength maxLength : UInt32) (enumName : String)
      (options : List String) :
      Complete (.enumArray id name (some minLength) (some maxLength) (some enumName)
        (some options))
  | object (id name : String) {fields : List Draft} (h : ∀ field ∈ fields, Complete field) :
      Complete (.object id name fields)
  | union (id name discriminatorName : String) {options : List String}
      {variants : Entries (List Draft)} (hkeyed : variants.KeyedBy options)
      (h : ∀ entry ∈ variants, ∀ field ∈ entry.2, Complete field) :
      Complete (.union id name (some discriminatorName) (some options) variants)
  | pointer (id name target : String) : Complete (.pointer id name (some target))

/-- Clearing leaves a complete draft complete, as identifiers are no attributes. -/
theorem Complete.cleared {draft : Draft} (h : draft.Complete) : draft.cleared.Complete := by
  induction h with
  | bool => exact .bool ..
  | int => exact .int ..
  | fixed => exact .fixed ..
  | enumeration => exact .enumeration ..
  | enumArray => exact .enumArray ..
  | pointer => exact .pointer ..
  | optional id name _ ih => exact .optional _ _ ih
  | array id name minLength maxLength _ ih => exact .array _ _ _ _ ih
  | object id name _ ih =>
      rw [cleared_object]
      exact .object _ _ (List.forall_mem_map.2 ih)
  | union id name discriminatorName hkeyed _ ih =>
      rw [cleared_union]
      refine .union _ _ _ (hkeyed.map_snd _) (List.forall_mem_map.2 fun entry hentry => ?_)
      exact List.forall_mem_map.2 (ih entry hentry)

/-! ### Rearranged drafts -/

mutual

/-- The second draft is the first one, but for the order in which unions store their variants.
Identifiers are part of a draft and stay as they are here. -/
inductive Rearranged : Draft → Draft → Prop
  | refl (draft : Draft) : Rearranged draft draft
  | optional (id name : String) {inner inner' : Draft} (h : Rearranged inner inner') :
      Rearranged (.optional id name (some inner)) (.optional id name (some inner'))
  | array (id name : String) (minLength maxLength : Option UInt32) {item item' : Draft}
      (h : Rearranged item item') :
      Rearranged (.array id name minLength maxLength (some item))
        (.array id name minLength maxLength (some item'))
  | object (id name : String) {fields fields' : List Draft}
      (h : List.Forall₂ Rearranged fields fields') :
      Rearranged (.object id name fields) (.object id name fields')
  | union (id name : String) (discriminatorName : Option String) (options : Option (List String))
      {variants stored variants' : List (String × List Draft)}
      (h : List.Forall₂ RearrangedVariant variants stored) (hperm : stored.Perm variants') :
      Rearranged (.union id name discriminatorName options variants)
        (.union id name discriminatorName options variants')

/-- The same variant, but for the order in which unions in it store theirs. -/
inductive RearrangedVariant : String × List Draft → String × List Draft → Prop
  | fields (key : String) {fields fields' : List Draft}
      (h : List.Forall₂ Rearranged fields fields') :
      RearrangedVariant (key, fields) (key, fields')

end

/-- Variants in another order are the same as those before, since each of them finds its own name
there. -/
theorem sameVariants_of_rearranged {variants stored others : Entries (List Draft)}
    (h : List.Forall₂ RearrangedVariant variants stored) (hperm : stored.Perm others)
    (hkeys : (Entries.keys others).Nodup)
    (hsame : ∀ entry ∈ others, ∀ field ∈ entry.2, ∀ draft, Rearranged draft field →
      draft.same field = true) : sameVariants variants others = true := by
  have hrelated : List.Forall₂ (fun a b => a.1 = b.1 ∧ List.Forall₂ Rearranged a.2 b.2)
      variants stored := h.imp fun a b hab => by
    cases hab with
    | fields key hfields => exact ⟨rfl, hfields⟩
  refine sameVariants_iff.2 fun entry hentry => ?_
  obtain ⟨fields, hmem, hget, hfields⟩ :=
    Entries.exists_get?_of_forall₂ hrelated hperm hkeys hentry
  exact ⟨fields, hget, sameList_iff.2 (forall₂_imp_of_mem hfields (hsame _ hmem))⟩

/-- **Rearranged drafts are the same**, unless a number in them is not even the same as itself.
Completeness is needed for the names of variants to be distinct, so that each of them finds its own.
-/
theorem Rearranged.same_of_complete {draft draft' : Draft} (h : Rearranged draft draft')
    (hcomplete : draft'.Complete) (hself : draft'.same draft' = true) :
    draft.same draft' = true := by
  induction hcomplete generalizing draft with
  | bool | int | fixed | enumeration | enumArray | pointer =>
      cases h
      exact hself
  | optional id name _ ih =>
      cases h with
      | refl => exact hself
      | optional _ _ h =>
          simp only [same, Bool.and_eq_true] at hself ⊢
          exact ⟨hself.1, ih h hself.2⟩
  | array id name minLength maxLength _ ih =>
      cases h with
      | refl => exact hself
      | array _ _ _ _ h =>
          simp only [same, Bool.and_eq_true] at hself ⊢
          exact ⟨hself.1, ih h hself.2⟩
  | object id name _ ih =>
      cases h with
      | refl => exact hself
      | object _ _ h =>
          simp only [same, Bool.and_eq_true, sameList_iff] at hself ⊢
          refine ⟨hself.1, forall₂_imp_of_mem h fun field hfield draft hdraft => ?_⟩
          exact ih field hfield hdraft (List.forall₂_same.1 hself.2 field hfield)
  | @union id name discriminatorName options variants hkeyed _ ih =>
      cases h with
      | refl => exact hself
      | union _ _ _ _ h hperm =>
          simp only [same, Bool.and_eq_true] at hself ⊢
          obtain ⟨⟨hattributes, -⟩, hfields⟩ := hself
          refine ⟨⟨hattributes, beq_iff_eq.2 (h.length_eq.trans hperm.length_eq)⟩, ?_⟩
          refine sameVariants_of_rearranged h hperm hkeyed.1 fun entry hentry field hfield draft
            hdraft => ?_
          exact ih entry hentry field hfield hdraft
            (same_of_sameVariants_self hkeyed.1 hfields entry hentry field hfield)

end Draft

end FieldGrammar
