/-!
# Entries in order

Objects and union variants map names to contents and keep the order in which the names were
first given: that order is visible in tokens and in JSON text.  A map is therefore a list of
pairs, and the operations of this module keep its names distinct.

Options, field names and table entries must not repeat either.  They are given as lists, and
`firstRepeated?` finds the first element that has occurred before, which is the one an error names.

## Main definitions

* `Entries` — names with contents, in order
* `Entries.get?` — the contents of a name
* `Entries.insert` — a new name goes to the end; a present one keeps its place
* `Entries.remove` — takes a name out; the others keep their places
* `Entries.ofList` — inserts pair after pair, so the last contents of a repeated name win at its
  first place
* `firstRepeated?` — the first element of a list that occurs earlier in it

## Main statements

* `Entries.search_eq`, `Entries.search_getD_eq` — functions that search the entries for a name
* `Entries.keys_insert` — where a new name goes
* `firstRepeated?_eq_none_iff` — nothing repeats when the elements are distinct
-/

namespace FieldGrammar

/-- Names with contents, in the order in which the names were first given. -/
abbrev Entries (α : Type) := List (String × α)

namespace Entries

variable {α β : Type}

/-- The contents of a name. -/
def get? : Entries α → String → Option α
  | [], _ => none
  | (k, v) :: rest, key => if k = key then some v else get? rest key

/-- Whether a name is present. -/
def contains (entries : Entries α) (key : String) : Bool :=
  (get? entries key).isSome

/-- The names, in order. -/
def keys (entries : Entries α) : List String :=
  entries.map Prod.fst

/-- The contents, in the order of their names. -/
def values (entries : Entries α) : List α :=
  entries.map Prod.snd

/-- Sets the contents of a name.  A new name goes to the end; a present one keeps its place. -/
def insert : Entries α → String → α → Entries α
  | [], key, value => [(key, value)]
  | (k, v) :: rest, key, value =>
    if k = key then (k, value) :: rest else (k, v) :: insert rest key value

/-- Takes a name out.  The others keep their places. -/
def remove (entries : Entries α) (key : String) : Entries α :=
  entries.filter fun entry => entry.1 ≠ key

/-- Inserts pair after pair. -/
def insertAll (entries : Entries α) (pairs : List (String × α)) : Entries α :=
  pairs.foldl (fun entries (key, value) => insert entries key value) entries

/-- The map that a list of pairs builds. -/
def ofList (pairs : List (String × α)) : Entries α :=
  insertAll [] pairs

@[simp] theorem get?_nil (key : String) : get? ([] : Entries α) key = none := rfl

theorem get?_cons (k : String) (v : α) (rest : Entries α) (key : String) :
    get? ((k, v) :: rest) key = if k = key then some v else get? rest key := rfl

/-- **A search that stops at a name** sees what the name finds and nothing else of the entries. -/
theorem search_eq {f : Entries α → β} {g : α → β} {key : String}
    (hcons : ∀ k v rest, f ((k, v) :: rest) = if k = key then g v else f rest)
    (entries : Entries α) : f entries = (get? entries key).elim (f []) g := by
  induction entries with
  | nil => rfl
  | cons entry rest ih =>
    obtain ⟨k, v⟩ := entry
    rw [hcons, get?_cons, ih]
    split <;> rfl

theorem search_eq_of_get? {f : Entries α → β} {g : α → β} {key : String} {entries : Entries α}
    {value : α} (hcons : ∀ k v rest, f ((k, v) :: rest) = if k = key then g v else f rest)
    (h : get? entries key = some value) : f entries = g value := by
  rw [search_eq hcons, h, Option.elim_some]

/-- A search for a list that does not tell an absent one from an empty one. -/
theorem search_getD_eq {f : Entries (List α) → β} {g : List α → β} {key : String}
    (hnil : f [] = g [])
    (hcons : ∀ k items rest, f ((k, items) :: rest) = if k = key then g items else f rest)
    (entries : Entries (List α)) : f entries = g ((get? entries key).getD []) := by
  rw [search_eq hcons, hnil]
  cases get? entries key <;> rfl

/-- What was inserted is there. -/
@[simp] theorem get?_insert_self (entries : Entries α) (key : String) (value : α) :
    get? (insert entries key value) key = some value := by
  induction entries with
  | nil => simp [insert, get?]
  | cons entry rest ih =>
    obtain ⟨k, v⟩ := entry
    by_cases h : k = key <;> simp [insert, get?, h, ih]

/-- Other names keep their contents. -/
theorem get?_insert_of_ne (entries : Entries α) {key other : String} (value : α)
    (h : key ≠ other) : get? (insert entries key value) other = get? entries other := by
  induction entries with
  | nil => simp [insert, get?, h]
  | cons entry rest ih =>
    obtain ⟨k, v⟩ := entry
    by_cases hk : k = key
    · subst hk; simp [insert, get?, h]
    · simp only [insert, hk, if_false, get?, ih]

/-- A new name goes to the end and a present one moves nothing. -/
theorem keys_insert (entries : Entries α) (key : String) (value : α) :
    keys (insert entries key value) =
      if key ∈ keys entries then keys entries else keys entries ++ [key] := by
  induction entries with
  | nil => simp [insert, keys]
  | cons entry rest ih =>
    obtain ⟨k, v⟩ := entry
    by_cases hk : k = key
    · subst hk; simp [insert, keys]
    · have ih' : List.map Prod.fst (insert rest key value) =
          if key ∈ List.map Prod.fst rest then List.map Prod.fst rest
          else List.map Prod.fst rest ++ [key] := ih
      simp only [insert, hk, if_false, keys, List.map_cons, ih', List.mem_cons]
      by_cases hmem : key ∈ List.map Prod.fst rest
      · simp [hmem]
      · simp [hmem, Ne.symm hk]

end Entries

/-! ## Repetitions in a list -/

variable {α : Type} [BEq α]

/-- The first element that is in `seen` or occurs earlier in the list. -/
def firstRepeatedFrom? : (seen : List α) → List α → Option α
  | _, [] => none
  | seen, x :: rest => if seen.contains x then some x else firstRepeatedFrom? (x :: seen) rest

/-- The first element of a list that occurs earlier in it. -/
def firstRepeated? (xs : List α) : Option α :=
  firstRepeatedFrom? [] xs

theorem firstRepeatedFrom?_eq_none_iff [LawfulBEq α] (seen xs : List α) :
    firstRepeatedFrom? seen xs = none ↔ xs.Nodup ∧ ∀ x ∈ xs, x ∉ seen := by
  induction xs generalizing seen with
  | nil => simp [firstRepeatedFrom?]
  | cons x rest ih =>
    by_cases h : x ∈ seen
    · simp [firstRepeatedFrom?, h]
    · simp only [firstRepeatedFrom?, List.contains_iff_mem, h, if_false, ih, List.nodup_cons,
        List.mem_cons, forall_eq_or_imp, not_false_eq_true, true_and, not_or]
      constructor
      · rintro ⟨hnodup, hrest⟩
        exact ⟨⟨fun hx => (hrest x hx).1 rfl, hnodup⟩, fun y hy => (hrest y hy).2⟩
      · rintro ⟨⟨hx, hnodup⟩, hrest⟩
        exact ⟨hnodup, fun y hy => ⟨fun heq => hx (heq ▸ hy), hrest y hy⟩⟩

/-- Nothing repeats exactly when the elements are pairwise distinct. -/
theorem firstRepeated?_eq_none_iff [LawfulBEq α] (xs : List α) :
    firstRepeated? xs = none ↔ xs.Nodup := by
  simp [firstRepeated?, firstRepeatedFrom?_eq_none_iff]

end FieldGrammar
