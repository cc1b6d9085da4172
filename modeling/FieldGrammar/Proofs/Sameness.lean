import Mathlib
import FieldGrammar.Same
import FieldGrammar.Proofs.Lookup

/-!
# Comparing part by part

Lists are the same when their members are the same one by one, and maps when every name of the
one finds the same contents in the other.

## Main statements

* `Entries.exists_get?_of_forall₂` — what is related one by one is found under the same name
* `Value.same_object_self` — an object and itself
* `Node.sameVariants_iff`, `Node.sameList_iff` — variants and lists of nodes
-/

namespace FieldGrammar

/-- Members that are related one by one are so in another way if this follows for each of them. -/
theorem forall₂_imp_of_mem {α β : Type} {R S : α → β → Prop} {items : List α} {others : List β}
    (h : List.Forall₂ R items others) (himp : ∀ b ∈ others, ∀ a, R a b → S a b) :
    List.Forall₂ S items others := by
  induction h with
  | nil => exact .nil
  | cons hab _ ih =>
      obtain ⟨hhead, hrest⟩ := List.forall_mem_cons.1 himp
      exact .cons (hhead _ hab) (ih hrest)

/-- Contents that are related one by one are found in the map in any order.  This is how comparison
is met: it looks the names of one map up in the other. -/
theorem Entries.exists_get?_of_forall₂ {α β : Type} {R : α → β → Prop} {entries : Entries α}
    {stored others : Entries β}
    (h : List.Forall₂ (fun a b => a.1 = b.1 ∧ R a.2 b.2) entries stored)
    (hperm : stored.Perm others) (hkeys : (keys others).Nodup) {entry : String × α}
    (hentry : entry ∈ entries) :
    ∃ value, (entry.1, value) ∈ others ∧ get? others entry.1 = some value ∧ R entry.2 value := by
  have hstored : ∃ value, (entry.1, value) ∈ stored ∧ R entry.2 value := by
    clear hperm
    induction h with
    | nil => cases hentry
    | @cons a b _ _ hab _ ih =>
        rcases List.mem_cons.1 hentry with rfl | hrest
        · refine ⟨b.2, ?_, hab.2⟩
          rw [hab.1]
          exact List.mem_cons_self
        · obtain ⟨value, hvalue, hR⟩ := ih hrest
          exact ⟨value, List.mem_cons_of_mem _ hvalue, hR⟩
  obtain ⟨value, hvalue, hR⟩ := hstored
  have hmem : (entry.1, value) ∈ others := hperm.mem_iff.1 hvalue
  exact ⟨value, hmem, (get?_eq_some_iff hkeys).2 hmem, hR⟩

namespace Value

/-- A list is the same as itself if each of its members is. -/
theorem sameList_self {items : List Value} (h : ∀ item ∈ items, same item item = true) :
    sameList items items = true := by
  induction items with
  | nil => rfl
  | cons item rest ih =>
      rw [sameList, h item List.mem_cons_self, Bool.true_and]
      exact ih fun i hi => h i (List.mem_cons_of_mem _ hi)

theorem same_array_self {items : List Value} (h : ∀ item ∈ items, same item item = true) :
    same (.array items) (.array items) = true := by
  rw [same]
  exact sameList_self h

/-- Entries are the same as others if each of them finds the same contents there. -/
theorem sameEntries_iff {entries : List (String × Value)} {others : Entries Value} :
    sameEntries entries others = true ↔
      ∀ entry ∈ entries, ∃ value, Entries.get? others entry.1 = some value ∧
        same entry.2 value = true := by
  induction entries with
  | nil => simp [sameEntries]
  | cons entry rest ih =>
      obtain ⟨key, value⟩ := entry
      rw [sameEntries, Bool.and_eq_true, ih, List.forall_mem_cons]
      refine and_congr_left fun _ => ?_
      cases Entries.get? others key <;> simp

/-- An object with distinct names is the same as itself if its contents are. -/
theorem same_object_self {entries : Entries Value} (hkeys : (Entries.keys entries).Nodup)
    (h : ∀ entry ∈ entries, same entry.2 entry.2 = true) :
    same (.object entries) (.object entries) = true := by
  rw [same, beq_self_eq_true, Bool.true_and, sameEntries_iff]
  exact fun entry hentry => ⟨_, (Entries.get?_eq_some_iff hkeys).2 hentry, h entry hentry⟩

end Value

namespace Node

/-- Lists are the same when their members are the same one by one. -/
theorem sameList_iff {fields others : List Node} :
    sameList fields others = true ↔ List.Forall₂ (fun a b => same a b = true) fields others := by
  induction fields generalizing others with
  | nil => cases others <;> simp [sameList]
  | cons field rest ih => cases others <;> simp [sameList, ih]

/-- Nodes that are treated one by one are the same as before if each of them is. -/
theorem sameList_map {treat : Node → Node} {fields : List Node}
    (h : ∀ field ∈ fields, same (treat field) field = true) :
    sameList (fields.map treat) fields = true :=
  sameList_iff.2 (List.forall₂_map_left_iff.2 (List.forall₂_same.2 h))

/-- Variants are the same as others if each of them finds the same fields there. -/
theorem sameVariants_iff {variants : List (String × List Node)} {others : Entries (List Node)} :
    sameVariants variants others = true ↔
      ∀ entry ∈ variants, ∃ fields, Entries.get? others entry.1 = some fields ∧
        sameList entry.2 fields = true := by
  induction variants with
  | nil => simp [sameVariants]
  | cons entry rest ih =>
      obtain ⟨key, fields⟩ := entry
      rw [sameVariants, Bool.and_eq_true, ih, List.forall_mem_cons]
      refine and_congr_left fun _ => ?_
      cases Entries.get? others key <;> simp

/-- The fields of variants that are the same as themselves are the same as themselves. -/
theorem same_of_sameVariants_self {variants : Entries (List Node)}
    (hkeys : (Entries.keys variants).Nodup) (h : sameVariants variants variants = true) :
    ∀ entry ∈ variants, ∀ field ∈ entry.2, same field field = true := by
  intro entry hentry
  obtain ⟨fields, hget, hfields⟩ := sameVariants_iff.1 h entry hentry
  rw [(Entries.get?_eq_some_iff hkeys).2 hentry, Option.some_inj] at hget
  subst hget
  exact List.forall₂_same.1 (sameList_iff.1 hfields)

end Node

end FieldGrammar
