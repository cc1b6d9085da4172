import Mathlib
import FieldGrammar.Data.Value

/-!
# Looking names up

A list of pairs is a map in two ways: the first pair of a name is the one that is found, and
building a map from the list lets the last one win.  The two agree when no name repeats, and then
the list *is* the map that it builds.  Readers build maps from lists, so this is what lets a
value be compared with the list of the fields that it was read from.

## Main statements

* `Entries.get?_eq_some_iff` — with distinct names, what is found is what is there
* `Entries.map_getOrNull`, `Entries.forall_getOrNull_iff` — items in the order of the keys
* `Entries.get?_map_self` — finding in a list that computes its contents from its names
* `Entries.forall_mem_getD` — members of what is found are members of what is stored
* `Entries.ofList_of_nodup` — a list without repeated names is the map it builds
* `Entries.ofList_concat`, `Entries.mem_keys_ofList` — maps built pair by pair
* `Entries.ofList_map_snd` — a map built from converted contents
* `Entries.ofList_map_self` — a list that computes its contents from names that may repeat
* `Entries.insertAll_singleton` — one entry overwritten by a list
-/

namespace FieldGrammar

/-- Behind a list of names, one more name is a first occurrence or none. -/
theorem eraseDups_concat (names : List String) (name : String) :
    (names ++ [name]).eraseDups =
      if name ∈ names then names.eraseDups else names.eraseDups ++ [name] := by
  have hone : [name].eraseDups = [name] := rfl
  rw [List.eraseDups_append]
  split <;> simp_all [List.removeAll]

/-- First occurrences are distinct. -/
theorem nodup_eraseDups (names : List String) : names.eraseDups.Nodup := by
  induction names using List.reverseRecOn with
  | nil => exact List.nodup_nil
  | append_singleton names name ih =>
      rw [eraseDups_concat]
      split
      · exact ih
      · next hnew =>
        rw [← List.concat_eq_append, List.nodup_concat]
        exact ⟨fun hmem => hnew (List.mem_eraseDups.1 hmem), ih⟩

namespace Entries

variable {α β : Type}

@[simp] theorem keys_nil : keys ([] : Entries α) = [] := rfl

@[simp] theorem keys_cons (entry : String × α) (rest : Entries α) :
    keys (entry :: rest) = entry.1 :: keys rest := rfl

@[simp] theorem get?_cons_self (key : String) (value : α) (rest : Entries α) :
    get? ((key, value) :: rest) key = some value := by
  rw [get?_cons, if_pos rfl]

theorem get?_cons_of_ne {k key : String} (h : k ≠ key) (value : α) (rest : Entries α) :
    get? ((k, value) :: rest) key = get? rest key := by
  rw [get?_cons, if_neg h]

theorem getOrNull_cons_self (key : String) (value : Value) (rest : Entries Value) :
    getOrNull ((key, value) :: rest) key = value := by
  rw [getOrNull, get?_cons_self, Option.getD_some]

theorem getOrNull_cons_of_ne {k key : String} (h : k ≠ key) (value : Value)
    (rest : Entries Value) : getOrNull ((k, value) :: rest) key = getOrNull rest key := by
  rw [getOrNull, get?_cons_of_ne h, getOrNull]

/-! ### What is found -/

/-- What is found is there. -/
theorem mem_of_get?_eq_some {entries : Entries α} {key : String} {value : α}
    (h : get? entries key = some value) : (key, value) ∈ entries := by
  induction entries with
  | nil => cases h
  | cons entry rest ih =>
      obtain ⟨k, v⟩ := entry
      rw [get?_cons] at h
      split at h
      · next hk =>
        subst hk
        cases h
        exact List.mem_cons_self
      · exact List.mem_cons_of_mem _ (ih h)

/-- Nothing is found under a name exactly when no entry has it. -/
theorem get?_eq_none_iff {entries : Entries α} {key : String} :
    get? entries key = none ↔ key ∉ keys entries := by
  induction entries with
  | nil => simp
  | cons entry rest ih =>
      obtain ⟨k, v⟩ := entry
      by_cases hk : k = key
      · simp [hk]
      · simp [get?_cons_of_ne hk, ih, Ne.symm hk]

theorem contains_iff {entries : Entries α} {key : String} :
    contains entries key = true ↔ key ∈ keys entries := by
  rw [contains, Option.isSome_iff_ne_none, Ne, get?_eq_none_iff, not_not]

/-- With distinct names, what is found is what is there. -/
theorem get?_eq_some_iff {entries : Entries α} (h : (keys entries).Nodup) {key : String}
    {value : α} : get? entries key = some value ↔ (key, value) ∈ entries := by
  refine ⟨mem_of_get?_eq_some, ?_⟩
  induction entries with
  | nil => intro hmem; cases hmem
  | cons entry rest ih =>
      intro hmem
      obtain ⟨k, v⟩ := entry
      rw [keys_cons, List.nodup_cons] at h
      rcases List.mem_cons.1 hmem with heq | hmem
      · cases heq
        exact get?_cons_self _ _ _
      · have hkey : key ∈ keys rest := List.mem_map.2 ⟨_, hmem, rfl⟩
        have hne : k ≠ key := fun heq => h.1 (heq ▸ hkey)
        rw [get?_cons_of_ne hne]
        exact ih h.2 hmem

/-- With distinct names, what is found does not depend on the order. -/
theorem get?_of_perm {entries entries' : Entries α} (h : (keys entries).Nodup)
    (hperm : entries.Perm entries') (key : String) : get? entries key = get? entries' key := by
  have h' : (keys entries').Nodup := (hperm.map Prod.fst).nodup_iff.1 h
  refine Option.ext fun value => ?_
  rw [get?_eq_some_iff h, get?_eq_some_iff h', hperm.mem_iff]

section

variable {items : List β} {name : β → String} {entries : Entries Value}

/-- **Items in the order of the keys** find the values where they stand.  This is how a list of
fields and the list of entries that was read for it are related. -/
theorem map_getOrNull (hkeys : keys entries = items.map name) (h : (items.map name).Nodup) :
    (items.map fun item => getOrNull entries (name item)) = entries.map Prod.snd := by
  have hvalues : (keys entries).map (getOrNull entries) = entries.map Prod.snd := by
    rw [keys, List.map_map]
    refine List.map_congr_left fun entry hentry => ?_
    rw [Function.comp_apply, getOrNull, (get?_eq_some_iff (hkeys ▸ h)).2 hentry, Option.getD_some]
  rw [← hvalues, hkeys, List.map_map]
  rfl

/-- What holds of each item and the value that its name finds holds of items and entries side by
side, if the entries are listed in the order of the items. -/
theorem forall_getOrNull_iff {P : β → Value → Prop} (hkeys : keys entries = items.map name)
    (h : (items.map name).Nodup) :
    (∀ item ∈ items, P item (getOrNull entries (name item))) ↔
      List.Forall₂ (fun item entry => P item entry.2) items entries := by
  rw [← List.forall₂_map_right_iff (R := P) (f := Prod.snd), ← map_getOrNull hkeys h,
    List.forall₂_map_right_iff, List.forall₂_same]

end

/-- Finding a name in a list that computes the contents from the names.  The names may repeat, as
all entries of one name have the same contents. -/
theorem get?_map_self {names : List String} (f : String → α) {key : String} (h : key ∈ names) :
    get? (names.map fun name => (name, f name)) key = some (f key) := by
  induction names with
  | nil => cases h
  | cons name rest ih =>
      rw [List.map_cons]
      by_cases hne : name = key
      · rw [hne, get?_cons_self]
      · rw [get?_cons_of_ne hne]
        exact ih ((List.mem_cons.1 h).resolve_left (Ne.symm hne))

theorem keys_map_self (names : List String) (f : String → α) :
    keys (names.map fun name => (name, f name)) = names := by
  rw [keys, List.map_map]
  exact List.map_id names

/-- Asking such a list for its own names finds what it computes. -/
theorem map_getD_map_self (names : List String) (f : String → List α) (g : α → β) :
    (names.map fun name =>
        (name, ((get? (names.map fun name => (name, f name)) name).getD []).map g)) =
      names.map fun name => (name, (f name).map g) := by
  refine List.map_congr_left fun name hname => ?_
  rw [get?_map_self f hname, Option.getD_some]

/-- Finding in a map whose contents are changed member by member. -/
theorem getD_map_snd (f : α → β) (entries : Entries (List α)) (key : String) :
    (get? (entries.map fun entry => (entry.1, entry.2.map f)) key).getD [] =
      ((get? entries key).getD []).map f := by
  induction entries with
  | nil => rfl
  | cons entry rest ih =>
      rw [List.map_cons, get?_cons, get?_cons]
      split
      · rfl
      · exact ih

/-- A member of what a name finds is a member of what some name is stored with. -/
theorem exists_mem_of_mem_getD {entries : Entries (List α)} {key : String} {item : α}
    (h : item ∈ (get? entries key).getD []) : ∃ entry ∈ entries, item ∈ entry.2 := by
  cases hget : get? entries key with
  | none =>
      rw [hget] at h
      cases h
  | some items =>
      rw [hget] at h
      exact ⟨_, mem_of_get?_eq_some hget, h⟩

/-- What holds of the members of all contents holds of those that a name finds. -/
theorem forall_mem_getD {P : α → Prop} {entries : Entries (List α)}
    (h : ∀ entry ∈ entries, ∀ item ∈ entry.2, P item) (key : String) :
    ∀ item ∈ (get? entries key).getD [], P item := by
  intro item hitem
  obtain ⟨entry, hentry, hmem⟩ := exists_mem_of_mem_getD hitem
  exact h entry hentry item hmem

/-- Removing another name leaves what is found. -/
theorem get?_filter_ne {other key : String} (h : key ≠ other) (entries : Entries α) :
    get? (entries.filter fun entry => entry.1 ≠ other) key = get? entries key := by
  induction entries with
  | nil => rfl
  | cons entry rest ih =>
      obtain ⟨k, v⟩ := entry
      by_cases hk : k = other
      · have hne : k ≠ key := hk ▸ Ne.symm h
        rw [List.filter_cons_of_neg (by simpa using hk), get?_cons_of_ne hne, ih]
      · rw [List.filter_cons_of_pos (by simpa using hk), get?_cons, get?_cons, ih]

/-! ### Building maps -/

/-- A new name goes to the end. -/
theorem insert_of_notMem {entries : Entries α} {key : String} (h : key ∉ keys entries)
    (value : α) : insert entries key value = entries ++ [(key, value)] := by
  induction entries with
  | nil => rfl
  | cons entry rest ih =>
      obtain ⟨k, v⟩ := entry
      rw [keys_cons, List.mem_cons, not_or] at h
      rw [insert, if_neg (Ne.symm h.1), ih h.2, List.cons_append]

/-- Setting a name to the contents that it has changes nothing. -/
theorem insert_of_get?_eq_some {entries : Entries α} {key : String} {value : α}
    (h : get? entries key = some value) : insert entries key value = entries := by
  induction entries with
  | nil => cases h
  | cons entry rest ih =>
      obtain ⟨k, v⟩ := entry
      by_cases hk : k = key
      · subst hk
        rw [get?_cons_self, Option.some_inj] at h
        rw [insert, if_pos rfl, h]
      · rw [get?_cons_of_ne hk] at h
        rw [insert, if_neg hk, ih h]

@[simp] theorem insertAll_nil (entries : Entries α) : insertAll entries [] = entries := rfl

theorem insertAll_cons (entries : Entries α) (key : String) (value : α)
    (pairs : List (String × α)) :
    insertAll entries ((key, value) :: pairs) = insertAll (insert entries key value) pairs := rfl

/-- Pairs with new and distinct names go to the end, in their order. -/
theorem insertAll_of_disjoint {entries : Entries α} {pairs : List (String × α)}
    (hpairs : (keys pairs).Nodup) (hnew : ∀ key ∈ keys pairs, key ∉ keys entries) :
    insertAll entries pairs = entries ++ pairs := by
  induction pairs generalizing entries with
  | nil => rw [insertAll_nil, List.append_nil]
  | cons pair pairs ih =>
      obtain ⟨key, value⟩ := pair
      rw [keys_cons, List.nodup_cons] at hpairs
      have hkey : key ∉ keys entries := hnew key List.mem_cons_self
      rw [insertAll_cons, insert_of_notMem hkey, ih hpairs.2, List.append_assoc,
        List.singleton_append]
      intro other hother hmem
      rw [keys, List.map_append, List.mem_append] at hmem
      rcases hmem with hmem | hmem
      · exact hnew other (List.mem_cons_of_mem _ hother) hmem
      · rw [List.map_singleton, List.mem_singleton] at hmem
        exact hpairs.1 (hmem ▸ hother)

/-- A list without repeated names is the map it builds. -/
theorem ofList_of_nodup {pairs : List (String × α)} (h : (keys pairs).Nodup) :
    ofList pairs = pairs := by
  rw [ofList, insertAll_of_disjoint h (by simp), List.nil_append]

/-- The last pair is inserted last. -/
theorem ofList_concat (pairs : List (String × α)) (key : String) (value : α) :
    ofList (pairs ++ [(key, value)]) = insert (ofList pairs) key value := by
  rw [ofList, insertAll, List.foldl_append]
  rfl

/-- The names of a map are the names of the pairs that it is built from. -/
theorem mem_keys_ofList {pairs : List (String × α)} {key : String} :
    key ∈ keys (ofList pairs) ↔ key ∈ keys pairs := by
  induction pairs using List.reverseRecOn with
  | nil => rfl
  | append_singleton pairs pair ih =>
      have hkeys : key ∈ keys (pairs ++ [pair]) ↔ key ∈ keys pairs ∨ key = pair.1 := by
        simp only [keys, List.map_append, List.mem_append, List.map_singleton, List.mem_singleton]
      rw [ofList_concat, keys_insert, hkeys]
      split
      · next hold =>
        refine ih.trans ⟨.inl, ?_⟩
        rintro (hmem | rfl)
        · exact hmem
        · exact ih.1 hold
      · rw [List.mem_append, List.mem_singleton, ih]

/-- Setting a name to converted contents is converting the map in which it was set. -/
theorem insert_map_snd (f : α → β) (entries : Entries α) (key : String) (value : α) :
    insert (entries.map fun entry => (entry.1, f entry.2)) key (f value) =
      (insert entries key value).map fun entry => (entry.1, f entry.2) := by
  induction entries with
  | nil => rfl
  | cons entry rest ih =>
      obtain ⟨k, v⟩ := entry
      rw [List.map_cons, insert, insert]
      split
      · rfl
      · rw [ih, List.map_cons]

/-- A map is built from converted contents by converting the contents of the map. -/
theorem ofList_map_snd (f : α → β) (pairs : List (String × α)) :
    ofList (pairs.map fun pair => (pair.1, f pair.2)) =
      (ofList pairs).map fun entry => (entry.1, f entry.2) := by
  induction pairs using List.reverseRecOn with
  | nil => rfl
  | append_singleton pairs pair ih =>
      rw [List.map_append, List.map_singleton, ofList_concat, ih, insert_map_snd, ← ofList_concat]

/-- A list that computes its contents from names that may repeat is the map of the distinct
names. -/
theorem ofList_map_self (names : List String) (f : String → α) :
    ofList (names.map fun name => (name, f name)) =
      names.eraseDups.map fun name => (name, f name) := by
  induction names using List.reverseRecOn with
  | nil => rfl
  | append_singleton names name ih =>
      rw [List.map_append, List.map_singleton, ofList_concat, ih, eraseDups_concat]
      split
      · next hmem =>
        have hget := get?_map_self f (List.mem_eraseDups.2 hmem)
        rw [insert_of_get?_eq_some hget]
      · next hnew =>
        have hkeys : name ∉ keys (names.eraseDups.map fun name => (name, f name)) := by
          rwa [keys_map_self, List.mem_eraseDups]
        rw [insert_of_notMem hkeys, List.map_append, List.map_singleton]

/-- A first entry overwritten by pairs with distinct names, which are new to the entries after
it. -/
private theorem insertAll_first (key : String) (value : α) (done : Entries α)
    {pairs : List (String × α)} (h : (keys pairs).Nodup)
    (hnew : ∀ other ∈ keys pairs, other ∉ keys done) :
    insertAll ((key, value) :: done) pairs =
      (key, (get? pairs key).getD value) :: (done ++ pairs.filter fun pair => pair.1 ≠ key) := by
  induction pairs generalizing value done with
  | nil => simp
  | cons pair pairs ih =>
      obtain ⟨k, v⟩ := pair
      rw [keys_cons, List.nodup_cons] at h
      rw [insertAll_cons, insert]
      by_cases hk : k = key
      · subst hk
        have hnone : get? pairs k = none := get?_eq_none_iff.2 h.1
        rw [if_pos rfl,
          ih v done h.2 fun other hother => hnew other (List.mem_cons_of_mem _ hother), hnone,
          get?_cons_self, List.filter_cons_of_neg (by simp)]
        rfl
      · have hdone : insert done k v = done ++ [(k, v)] :=
          insert_of_notMem (hnew k List.mem_cons_self) v
        rw [if_neg (Ne.symm hk), hdone, ih value _ h.2, get?_cons_of_ne hk,
          List.filter_cons_of_pos (by simpa using hk), List.append_assoc, List.singleton_append]
        intro other hother hmem
        rw [keys, List.map_append, List.mem_append] at hmem
        rcases hmem with hmem | hmem
        · exact hnew other (List.mem_cons_of_mem _ hother) hmem
        · rw [List.map_singleton, List.mem_singleton] at hmem
          exact h.1 (hmem ▸ hother)

/-- One entry overwritten by pairs with distinct names: its contents are those of the pair of
its name, if there is one, and the other pairs follow. -/
theorem insertAll_singleton (key : String) (value : α) {pairs : List (String × α)}
    (h : (keys pairs).Nodup) :
    insertAll [(key, value)] pairs =
      (key, (get? pairs key).getD value) :: pairs.filter fun pair => pair.1 ≠ key := by
  rw [insertAll_first key value [] h (by simp), List.nil_append]

/-! ### Given names -/

/-- The names of a map are those given, in any order and each once.  The given names may repeat, as
options of a draft may. -/
def KeyedBy (entries : Entries α) (names : List String) : Prop :=
  (keys entries).Nodup ∧ ∀ key, key ∈ keys entries ↔ key ∈ names

instance (entries : Entries α) (names : List String) : Decidable (entries.KeyedBy names) :=
  decidable_of_iff ((keys entries).Nodup ∧
      (∀ key ∈ keys entries, key ∈ names) ∧ ∀ key ∈ names, key ∈ keys entries)
    (and_congr_right fun _ => ⟨fun h key => ⟨h.1 key, h.2 key⟩,
      fun h => ⟨fun key => (h key).1, fun key => (h key).2⟩⟩)

/-- Whatever the contents are turned into, the names are the given ones as before. -/
theorem KeyedBy.map_snd {entries : Entries α} {names : List String} (h : entries.KeyedBy names)
    (f : α → β) : KeyedBy (entries.map fun entry => (entry.1, f entry.2)) names := by
  have hkeys : keys (entries.map fun entry => (entry.1, f entry.2)) = keys entries := by
    rw [keys, List.map_map]
    rfl
  unfold KeyedBy
  rw [hkeys]
  exact h

/-- Asking for the given names, one by one, finds the map in another order. -/
theorem KeyedBy.map_getD_perm {entries : Entries (List α)} {names : List String}
    (h : entries.KeyedBy names) :
    (names.eraseDups.map fun name => (name, (get? entries name).getD [])).Perm entries := by
  obtain ⟨hkeys, hmem⟩ := h
  have hperm : names.eraseDups.Perm (keys entries) :=
    (List.perm_ext_iff_of_nodup (nodup_eraseDups names) hkeys).2 fun key => by
      rw [List.mem_eraseDups, hmem]
  have hself : (keys entries).map (fun name => (name, (get? entries name).getD [])) = entries := by
    rw [keys, List.map_map]
    refine (List.map_congr_left fun entry hentry => ?_).trans entries.map_id
    have hget : get? entries entry.1 = some entry.2 := (get?_eq_some_iff hkeys).2 hentry
    rw [Function.comp_apply, hget, Option.getD_some]
    rfl
  have hmap := hperm.map fun name => (name, (get? entries name).getD [])
  rwa [hself] at hmap

end Entries

end FieldGrammar
