import Mathlib
import FieldGrammar.Proofs.TextOctets
import FieldGrammar.SchemaToken.StringTable

/-!
# String tables, written and grown

The written form of a table joins its entries by a separator, and reading splits the text again.
Splitting undoes joining for entries without the separator, and joining undoes splitting always;
so a table is read back from its octets, and the octets of a table that was read are the octets
it was read from.

Interning strings one after the other grows a table at its end (`StringTable.addAll`): the
indices of the strings that were there before stay what they are.

## Main statements

* `StringTable.split_join`, `StringTable.join_split` — the written text
* `StringTable.ofBytes_toBytes`, `StringTable.of_ofBytes` — the written octets
* `StringTable.length_encode_join` — the number of octets
* `StringTable.intern_eq_ok_iff` — what interning does
* `StringTable.idxOf_addAll` — indices stay valid
-/

namespace FieldGrammar

namespace StringTable

/-! ### Joining and splitting -/

/-- Characters other than the separator go to the current piece. -/
theorem splitFrom_append {chars : List Char} (h : separator ∉ chars) (rest piece : List Char)
    (done : List String) :
    splitFrom (chars ++ rest) piece done = splitFrom rest (chars.reverse ++ piece) done := by
  induction chars generalizing piece with
  | nil => rfl
  | cons c chars ih =>
      rw [List.mem_cons, not_or] at h
      rw [List.cons_append, splitFrom, if_neg (Ne.symm h.1), ih h.2, List.reverse_cons,
        List.append_assoc, List.singleton_append]

/-- Finished pieces stand in front. -/
theorem splitFrom_done (chars piece : List Char) (done : List String) :
    splitFrom chars piece done = done.reverse ++ splitFrom chars piece [] := by
  induction chars generalizing piece done with
  | nil => simp [splitFrom]
  | cons c chars ih =>
      rw [splitFrom, splitFrom]
      split
      · rw [ih [] (_ :: done), ih [] [_], List.reverse_cons, List.append_assoc]
        rfl
      · exact ih (c :: piece) done

/-- A text has at least one piece, which may be empty.  So splitting never gives the empty list, of
which nothing is joined. -/
theorem splitFrom_ne_nil (chars piece : List Char) : splitFrom chars piece [] ≠ [] := by
  induction chars generalizing piece with
  | nil => simp [splitFrom]
  | cons c chars ih =>
      rw [splitFrom]
      split
      · rw [splitFrom_done]
        simp
      · exact ih (c :: piece)

/-- An entry in front of others is followed by the separator. -/
theorem join_cons (s : String) {rest : List String} (h : rest ≠ []) :
    join (s :: rest) = s.toList ++ separator :: join rest := by
  cases rest with
  | nil => exact absurd rfl h
  | cons next rest => rfl

/-- **Splitting undoes joining**, for entries without the separator.  There has to be an entry,
since the empty text is split into one empty piece. -/
theorem split_join {entries : List String} (hne : entries ≠ [])
    (h : ∀ s ∈ entries, separator ∉ s.toList) : split (join entries) = entries := by
  induction entries with
  | nil => exact absurd rfl hne
  | cons s rest ih =>
      obtain ⟨hs, hrest⟩ := List.forall_mem_cons.1 h
      by_cases hnil : rest = []
      · subst hnil
        have happend := splitFrom_append hs [] [] []
        rw [List.append_nil] at happend
        rw [split, join, happend, splitFrom]
        simp
      · rw [split, join_cons s hnil, splitFrom_append hs, splitFrom, if_pos rfl, splitFrom_done]
        rw [split] at ih
        rw [ih hnil hrest]
        simp

/-- Joining the pieces of a text gives the text, behind the piece that was begun. -/
private theorem join_splitFrom (chars piece : List Char) :
    join (splitFrom chars piece []) = piece.reverse ++ chars := by
  -- A separator ends the piece, and any other character goes to it.
  induction chars generalizing piece with
  | nil => simp [splitFrom, join]
  | cons c chars ih =>
      rw [splitFrom]
      split
      · next hc =>
        rw [splitFrom_done, List.reverse_singleton, List.singleton_append,
          join_cons _ (splitFrom_ne_nil chars []), ih [], String.toList_ofList, hc]
        rfl
      · rw [ih (c :: piece), List.reverse_cons, List.append_assoc, List.singleton_append]

/-- **Joining undoes splitting.** -/
theorem join_split (chars : List Char) : join (split chars) = chars :=
  join_splitFrom chars []

/-- No piece contains the separator if the piece that was begun does not. -/
private theorem notMem_of_mem_splitFrom {chars piece : List Char} (hpiece : separator ∉ piece)
    {s : String} (h : s ∈ splitFrom chars piece []) : separator ∉ s.toList := by
  induction chars generalizing piece with
  | nil =>
      rw [splitFrom, List.reverse_singleton, List.mem_singleton] at h
      rw [h, String.toList_ofList, List.mem_reverse]
      exact hpiece
  | cons c chars ih =>
      rw [splitFrom] at h
      split at h
      · rw [splitFrom_done, List.reverse_singleton, List.singleton_append, List.mem_cons] at h
        rcases h with rfl | h
        · rw [String.toList_ofList, List.mem_reverse]
          exact hpiece
        · exact ih List.not_mem_nil h
      · next hc =>
        refine ih ?_ h
        rw [List.mem_cons, not_or]
        exact ⟨Ne.symm hc, hpiece⟩

/-- No piece contains the separator. -/
theorem notMem_of_mem_split {chars : List Char} {s : String} (h : s ∈ split chars) :
    separator ∉ s.toList :=
  notMem_of_mem_splitFrom List.not_mem_nil h

/-! ### Octets -/

/-- The number of octets of a string, as the limits on tables count them. -/
def octets (s : String) : Nat :=
  (Utf8.encode s.toList).length

/-- A joined text has the octets of its entries and one for each separator between two of them. -/
theorem length_encode_join {entries : List String} (hne : entries ≠ []) :
    (Utf8.encode (join entries)).length = (entries.map octets).sum + (entries.length - 1) := by
  induction entries with
  | nil => exact absurd rfl hne
  | cons s rest ih =>
      by_cases hnil : rest = []
      · subst hnil
        simp [join, octets]
      · have hseparator : (String.utf8EncodeChar separator).length = 1 := rfl
        have hpos : 0 < rest.length := List.length_pos_iff.2 hnil
        have hrest := ih hnil
        rw [Utf8.encode] at hrest
        rw [join_cons s hnil, Utf8.encode, List.flatMap_append, List.flatMap_cons,
          List.length_append, List.length_append, hseparator, hrest, List.map_cons, List.sum_cons,
          List.length_cons, octets, Utf8.encode]
        omega

/-- The octets of a table are those of its entries with one octet between any two. -/
theorem length_toBytes {table : StringTable} (hne : table.entries ≠ [])
    (hnodup : table.entries.Nodup) : table.toBytes.length =
      ∑ s ∈ table.entries.toFinset, octets s + (table.entries.toFinset.card - 1) := by
  rw [toBytes, length_encode_join hne, List.sum_toFinset _ hnodup,
    List.toFinset_card_of_nodup hnodup]

/-- **A table is read back from its octets**, when it has an entry, none twice, and none with the
separator in it. -/
theorem ofBytes_toBytes {table : StringTable} (hne : table.entries ≠ [])
    (hnodup : table.entries.Nodup) (h : ∀ s ∈ table.entries, separator ∉ s.toList) :
    ofBytes table.toBytes = .ok table := by
  rw [ofBytes, toBytes, Utf8.decode_encode]
  dsimp only
  rw [split_join hne h, (firstRepeated?_eq_none_iff _).2 hnodup]

/-- What is known of a table that was read: its octets are those it was read from, and it has at
least one entry, none twice and none with the separator in it. -/
theorem of_ofBytes {bytes : List UInt8} {table : StringTable} (h : ofBytes bytes = .ok table) :
    table.toBytes = bytes ∧ table.entries ≠ [] ∧ table.entries.Nodup ∧
      ∀ s ∈ table.entries, separator ∉ s.toList := by
  rw [ofBytes] at h
  cases hdecode : Utf8.decode bytes with
  | error fault =>
      rw [hdecode] at h
      cases h
  | ok chars =>
      rw [hdecode] at h
      dsimp only at h
      cases hrepeated : firstRepeated? (split chars) with
      | some s =>
          rw [hrepeated] at h
          cases h
      | none =>
          rw [hrepeated] at h
          cases h
          refine ⟨?_, splitFrom_ne_nil chars [], (firstRepeated?_eq_none_iff _).1 hrepeated,
            fun s => notMem_of_mem_split⟩
          rw [toBytes, join_split, Utf8.encode_of_decode hdecode]

/-! ### Growing a table -/

/-- The table with one more string, if it is new. -/
def add (table : StringTable) (s : String) : StringTable :=
  if s ∈ table.entries then table else ⟨table.entries ++ [s]⟩

/-- The table with the strings of a list, in order.  A description is one such list, known before
any of it is interned. -/
def addAll (table : StringTable) (strings : List String) : StringTable :=
  strings.foldl add table

@[simp] theorem addAll_nil (table : StringTable) : table.addAll [] = table := rfl

theorem addAll_cons (table : StringTable) (s : String) (strings : List String) :
    table.addAll (s :: strings) = (table.add s).addAll strings := rfl

/-- A list of strings may be added in two parts.  This is how the strings of a tree are added node
by node. -/
theorem addAll_append (table : StringTable) (xs ys : List String) :
    table.addAll (xs ++ ys) = (table.addAll xs).addAll ys :=
  List.foldl_append

/-- A string is in the table once it is added, whether it was new or not. -/
theorem mem_add {table : StringTable} {s t : String} :
    t ∈ (table.add s).entries ↔ t ∈ table.entries ∨ t = s := by
  rw [add]
  split
  · next h =>
    constructor
    · exact .inl
    · rintro (ht | rfl)
      · exact ht
      · exact h
  · simp

theorem mem_addAll {table : StringTable} {strings : List String} {t : String} :
    t ∈ (table.addAll strings).entries ↔ t ∈ table.entries ∨ t ∈ strings := by
  induction strings generalizing table with
  | nil => simp
  | cons s strings ih => rw [addAll_cons, ih, mem_add, List.mem_cons, or_assoc]

theorem nodup_add {table : StringTable} (h : table.entries.Nodup) (s : String) :
    (table.add s).entries.Nodup := by
  rw [add]
  split
  · exact h
  · next hs =>
    rw [List.nodup_append_comm, List.singleton_append, List.nodup_cons]
    exact ⟨hs, h⟩

/-- A table without repeated entries has none after it has grown, by induction on what is added. -/
theorem nodup_addAll {table : StringTable} (h : table.entries.Nodup) (strings : List String) :
    (table.addAll strings).entries.Nodup := by
  induction strings generalizing table with
  | nil => exact h
  | cons s strings ih => exact ih (nodup_add h s)

/-- **Indices stay valid.**  A table grows at its end, so the first place of an entry is where it
was. -/
theorem idxOf_addAll {table : StringTable} {s : String} (h : s ∈ table.entries)
    (strings : List String) :
    (table.addAll strings).entries.idxOf s = table.entries.idxOf s := by
  induction strings generalizing table with
  | nil => rfl
  | cons t strings ih =>
      rw [addAll_cons, ih (mem_add.2 (.inl h)), add]
      split
      · rfl
      · exact List.idxOf_append_of_mem h

/-- **Interning gives the index in the grown table**, and refuses new strings with the separator.  A
string that is in the table is found there and nothing is added. -/
theorem intern_eq_ok_iff {table after : StringTable} {s : String} {index : Nat} :
    table.intern s = .ok (index, after) ↔
      (s ∈ table.entries ∨ separator ∉ s.toList) ∧ after = table.add s ∧
        index = after.entries.idxOf s := by
  rw [intern, indexOf?, add]
  by_cases hmem : s ∈ table.entries
  · have hindex : table.entries.idxOf? s = some (table.entries.idxOf s) := by
      rw [List.idxOf?_eq_some_iff]
      refine ⟨List.idxOf_lt_length_of_mem hmem, List.getElem_idxOf _, fun j hj => ?_⟩
      exact beq_eq_false_iff_ne.1 (List.not_of_lt_findIdx hj)
    rw [hindex, if_pos hmem]
    simp only [Except.ok.injEq, Prod.mk.injEq, hmem, true_or, true_and]
    constructor
    · rintro ⟨rfl, rfl⟩
      exact ⟨rfl, rfl⟩
    · rintro ⟨rfl, rfl⟩
      exact ⟨rfl, rfl⟩
  · have hindex : table.entries.idxOf? s = none := List.idxOf?_eq_none_iff.2 hmem
    rw [hindex, if_neg hmem]
    dsimp only
    by_cases hseparator : separator ∈ s.toList
    · rw [if_pos (List.contains_iff_mem.2 hseparator)]
      simp [hmem, hseparator]
    · rw [if_neg fun h => hseparator (List.contains_iff_mem.1 h)]
      simp only [Except.ok.injEq, Prod.mk.injEq, hmem, hseparator, false_or, not_false_eq_true,
        true_and]
      have hsize : table.size = (table.entries ++ [s]).idxOf s := by
        rw [List.idxOf_append_of_notMem hmem, List.idxOf_cons_self, Nat.add_zero, size]
      constructor
      · rintro ⟨rfl, rfl⟩
        exact ⟨rfl, hsize⟩
      · rintro ⟨rfl, rfl⟩
        exact ⟨hsize, rfl⟩

/-- An entry is found at its index. -/
theorem entry_idxOf {table : StringTable} {s : String} (h : s ∈ table.entries) :
    table.entry (table.entries.idxOf s) = .ok s := by
  have hlt := List.idxOf_lt_length_of_mem h
  rw [entry, List.getElem?_eq_getElem hlt, List.getElem_idxOf hlt]

end StringTable

end FieldGrammar
