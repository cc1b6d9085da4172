import Mathlib
import FieldGrammar.Proofs.Description

/-!
# Histories of string tables

A string table starts without entries and is asked for the indices of strings, one after the other.

**One request.**  A request is answered by an index at which its string stands afterwards, and
the strings that were there before keep their indices; or it is refused, because its string contains
the separator, and then it leaves the table as it was (`StringTable.Served`).

**A sequence of requests.**  Requests keep the table well-formed: its entries are distinct and none
contains the separator.  This is what the written form needs to be read back, and octets that can
be read at all are those of the table that is read from them.

**The table of a schema.**  Describing a schema asks for its strings in the order of the walk, and
only the first request for a string adds it.  So the entries are the first occurrences in that
sequence.

## Main definitions

* `StringTable.request`, `StringTable.requests` — interning, with the table as a variable
* `StringTable.WellFormed` — distinct entries without the separator
* `StringTable.Served` — what a request answers and what it leaves behind

## Main statements

* `StringTable.served_request`, `StringTable.wellFormed_request` — one request
* `StringTable.wellFormed_requests` — a sequence of requests
* `StringTable.wellFormed_requests_and_ofBytes_eq_ok_iff` — histories and written forms
* `StringTable.entries_addAll_empty` — a grown table has the first occurrences
* `stringTableOf_eq_ok_iff` — the table of a schema
-/

namespace FieldGrammar

namespace StringTable

/-! ### Requests -/

/-- A request for the index of a string.  The table is a variable: a request that is answered leaves
the grown table in it, and one that is refused leaves the table as it was. -/
def request (s : String) : StateM StringTable (Except TableFault Nat) := fun table =>
  match table.intern s with
  | .ok (index, grown) => (.ok index, grown)
  | .error fault => (.error fault, table)

/-- Requests for the strings of a list, in order, and their answers.  A request that is refused
leaves the table as it was, and the next one is made all the same. -/
def requests (strings : List String) : StateM StringTable (List (Except TableFault Nat)) :=
  strings.mapM request

/-- The entries are distinct, and none of them contains the separator. -/
structure WellFormed (table : StringTable) : Prop where
  nodup : table.entries.Nodup
  notMem : ∀ s ∈ table.entries, separator ∉ s.toList

/-- What a request answers and leaves behind.  The string stands at the index of the answer, and
strings that were there before keep their indices; a string with the separator is refused, and the
table is the one before. -/
inductive Served (before : StringTable) (s : String) : Except TableFault Nat × StringTable → Prop
  | answered {index : Nat} {after : StringTable} (hentry : after.entry index = .ok s)
      (hearlier : ∀ t i, before.indexOf? t = some i → after.indexOf? t = some i) :
      Served before s (.ok index, after)
  | refused (h : separator ∈ s.toList) : Served before s (.error (.separator s), before)

theorem wellFormed_empty : empty.WellFormed :=
  ⟨List.nodup_nil, nofun⟩

theorem entries_prefix_add (table : StringTable) (s : String) :
    table.entries <+: (table.add s).entries := by
  unfold add
  split
  · exact List.prefix_rfl
  · exact List.prefix_append _ _

/-- Entries at the end of a table do not move those before. -/
theorem indexOf?_eq_some_of_prefix {before after : StringTable}
    (h : before.entries <+: after.entries) {s : String} {i : Nat}
    (hs : before.indexOf? s = some i) : after.indexOf? s = some i := by
  obtain ⟨more, hmore⟩ := h
  unfold indexOf? List.idxOf? at *
  rw [← hmore, List.findIdx?_append, hs, Option.some_or]

/-- A string without the separator is added to the table, unless it is there. -/
theorem run_request_of_notMem {s : String} (h : separator ∉ s.toList) (table : StringTable) :
    (request s).run table = (.ok ((table.add s).entries.idxOf s), table.add s) := by
  have hintern : table.intern s = .ok ((table.add s).entries.idxOf s, table.add s) :=
    intern_eq_ok_iff.2 ⟨.inr h, rfl, rfl⟩
  show request s table = _
  unfold request
  rw [hintern]

/-- A string with the separator is no entry of a well-formed table, and it is refused. -/
theorem run_request_of_mem {table : StringTable} (htable : table.WellFormed)
    {s : String} (h : separator ∈ s.toList) :
    (request s).run table = (.error (.separator s), table) := by
  have hnew : s ∉ table.entries := fun hs => htable.notMem s hs h
  have hintern : table.intern s = .error (.separator s) := by
    unfold intern indexOf?
    rw [List.idxOf?_eq_none_iff.2 hnew]
    exact if_pos (List.contains_iff_mem.2 h)
  show request s table = _
  unfold request
  rw [hintern]

/-- **One request** to a well-formed table.  It is the step that is repeated along a history. -/
theorem served_request {table : StringTable} (htable : table.WellFormed) (s : String) :
    Served table s ((request s).run table) := by
  by_cases h : separator ∈ s.toList
  · rw [run_request_of_mem htable h]
    exact .refused h
  · rw [run_request_of_notMem h]
    refine .answered (entry_idxOf (mem_add.2 (.inr rfl))) ?_
    intro t i ht
    exact indexOf?_eq_some_of_prefix (entries_prefix_add table s) ht

/-- A request keeps a table well-formed. -/
theorem wellFormed_request {table : StringTable} (htable : table.WellFormed) (s : String) :
    ((request s).run table).2.WellFormed := by
  by_cases h : separator ∈ s.toList
  · rw [run_request_of_mem htable h]
    exact htable
  · rw [run_request_of_notMem h]
    refine ⟨nodup_add htable.nodup s, ?_⟩
    intro t ht
    rcases mem_add.1 ht with ht | rfl
    · exact htable.notMem t ht
    · exact h

/-! ### Sequences of requests -/

/-- The first request is served and then the others. -/
theorem run_requests_cons (s : String) (strings : List String) (table : StringTable) :
    (requests (s :: strings)).run table =
      (((request s).run table).1 :: ((requests strings).run ((request s).run table).2).1,
        ((requests strings).run ((request s).run table).2).2) := by
  unfold requests
  rw [List.mapM_cons]
  rfl

/-- **Requests keep a table well-formed**, whatever is asked for and whatever is refused. -/
theorem wellFormed_requests {table : StringTable} (htable : table.WellFormed)
    (strings : List String) : ((requests strings).run table).2.WellFormed := by
  induction strings generalizing table with
  | nil => exact htable
  | cons s strings ih =>
      rw [run_requests_cons]
      exact ih (wellFormed_request htable s)

/-- A well-formed table is not empty after a request that is answered, or if it was not before. -/
theorem entries_ne_nil_of_requests {table : StringTable} (htable : table.WellFormed)
    (strings : List String)
    (h : table.entries ≠ [] ∨ ∃ index, .ok index ∈ ((requests strings).run table).1) :
    ((requests strings).run table).2.entries ≠ [] := by
  induction strings generalizing table with
  | nil =>
      rcases h with h | ⟨index, h⟩
      · exact h
      · cases h
  | cons s strings ih =>
      rw [run_requests_cons] at h ⊢
      refine ih (wellFormed_request htable s) ?_
      by_cases hs : separator ∈ s.toList
      · rw [run_request_of_mem htable hs] at h ⊢
        refine h.imp_right ?_
        rintro ⟨index, hindex⟩
        exact ⟨index, (List.mem_cons.1 hindex).resolve_left nofun⟩
      · rw [run_request_of_notMem hs]
        exact .inl (List.ne_nil_of_mem (mem_add.2 (.inr rfl)))

/-! ### Written forms -/

/-- What is read so far goes in front of the first piece. -/
private theorem splitFrom_eq_splitOn (chars piece : List Char) :
    splitFrom chars piece [] =
      ((chars.splitOn separator).modifyHead (piece.reverse ++ ·)).map String.ofList := by
  induction chars generalizing piece with
  | nil => simp [splitFrom]
  | cons c chars ih =>
      unfold splitFrom
      rw [List.splitOn_cons_eq_if_modifyHead]
      by_cases hc : c = separator
      · have hrest := ih []
        simp only [List.reverse_nil, List.nil_append] at hrest
        simp [hc, splitFrom_done chars [] [_], hrest]
        exact congrArg (List.map String.ofList) (congrFun List.modifyHead_id _)
      · rw [if_neg hc, if_neg (by simpa using hc), ih, List.modifyHead_modifyHead]
        simp [Function.comp_def]

/-- The pieces of a text are the parts between separators. -/
theorem split_eq_splitOn (chars : List Char) :
    split chars = (chars.splitOn separator).map String.ofList := by
  rw [split, splitFrom_eq_splitOn]
  exact congrArg (List.map String.ofList) (congrFun List.modifyHead_id _)

/-- **Octets are read as a table** when they are those of a text whose pieces are distinct.  The
empty text is one empty piece and so a table too. -/
theorem ofBytes_eq_ok_iff {bytes : List UInt8} {table : StringTable} :
    ofBytes bytes = .ok table ↔
      ∃ chars, Utf8.encode chars = bytes ∧ (chars.splitOn separator).Nodup ∧
        table = ⟨(chars.splitOn separator).map String.ofList⟩ := by
  have hnodup : ∀ chars : List Char,
      firstRepeated? (split chars) = none ↔ (chars.splitOn separator).Nodup := by
    intro chars
    rw [firstRepeated?_eq_none_iff, split_eq_splitOn]
    exact List.nodup_map_iff fun _ _ h => String.ofList_injective h
  constructor
  · intro h
    unfold ofBytes at h
    split at h
    · cases h
    · next chars hdecode =>
      dsimp only at h
      split at h
      · cases h
      · next hnone =>
        cases h
        exact ⟨chars, Utf8.encode_of_decode hdecode, (hnodup chars).1 hnone,
          congrArg _ (split_eq_splitOn chars)⟩
  · rintro ⟨chars, rfl, hdistinct, rfl⟩
    unfold ofBytes
    rw [Utf8.decode_encode]
    dsimp only
    rw [(hnodup chars).2 hdistinct, split_eq_splitOn]

/-- **Histories and written forms.**  Whatever has been asked of a table that was empty at first,
its entries are distinct and without the separator, and the next request is served.  If some request
was answered, the table is read back from its octets.  Octets are read as a table exactly when they
are those of a text whose pieces between separators are distinct; the table holds these pieces, and
its octets are the ones it was read from. -/
theorem wellFormed_requests_and_ofBytes_eq_ok_iff :
    (∀ strings : List String,
      ((requests strings).run empty).2.WellFormed ∧
        (∀ s, Served ((requests strings).run empty).2 s
          ((request s).run ((requests strings).run empty).2)) ∧
        ((∃ index, .ok index ∈ ((requests strings).run empty).1) →
          ofBytes ((requests strings).run empty).2.toBytes =
            .ok ((requests strings).run empty).2)) ∧
      ∀ bytes table,
        (ofBytes bytes = .ok table ↔
          ∃ chars, Utf8.encode chars = bytes ∧ (chars.splitOn separator).Nodup ∧
            table = ⟨(chars.splitOn separator).map String.ofList⟩) ∧
          (ofBytes bytes = .ok table → table.toBytes = bytes) := by
  refine ⟨fun strings => ?_, fun bytes table => ⟨ofBytes_eq_ok_iff, fun h => (of_ofBytes h).1⟩⟩
  have hwell := wellFormed_requests wellFormed_empty strings
  refine ⟨hwell, served_request hwell, fun hanswered => ?_⟩
  exact ofBytes_toBytes (entries_ne_nil_of_requests wellFormed_empty strings (.inr hanswered))
    hwell.nodup hwell.notMem

/-! ### First occurrences -/

/-- **A table grown from the empty one has the first occurrences** of the strings, in order. -/
theorem entries_addAll_empty (strings : List String) :
    (empty.addAll strings).entries = strings.eraseDups := by
  induction strings using List.reverseRecOn with
  | nil => rfl
  | append_singleton strings s ih =>
      have hmem : s ∈ (empty.addAll strings).entries ↔ s ∈ strings := by
        rw [ih, List.mem_eraseDups]
      rw [addAll_append, addAll_cons, addAll_nil, eraseDups_concat, ← ih]
      unfold add
      by_cases hs : s ∈ strings
      · rw [if_pos (hmem.2 hs), if_pos hs]
      · rw [if_neg fun h => hs (hmem.1 h), if_neg hs]

end StringTable

/-! ### The table of a schema -/

/-- **The string table of a schema** exists if no string contains the separator and the fixed-point
attributes are on the grid of tokens.  Its entries are the first occurrences in the sequence of the
schema's name and the strings of the nodes of the walk: for each node its name, the name of its
enumeration or discriminator where it has a separate one, and its options or its target.  The
attributes come in because the table is a by-product of describing, which refuses the others. -/
theorem stringTableOf_eq_ok_iff {name : String} {fields : List Node} {table : StringTable} :
    stringTableOf name fields = .ok table ↔
      (∀ s ∈ name :: (Node.walkList fields).flatMap Node.ownStrings,
        StringTable.separator ∉ s.toList) ∧
        (∀ m ∈ Node.walkList fields, m.OnGrid) ∧
        table.entries = (name :: (Node.walkList fields).flatMap Node.ownStrings).eraseDups := by
  have hentries : table = Describe.tableOf name fields ↔
      table.entries = (schemaStrings name fields).eraseDups := by
    rw [← StringTable.entries_addAll_empty, Describe.tableOf]
    exact ⟨congrArg _, fun h => congrArg StringTable.mk h⟩
  have hrun : stringTableOf name fields = .ok table ↔
      ∃ data, Describe.schema name fields = .ok (data, table) := by
    unfold stringTableOf
    rw [bind_eq_ok_iff]
    constructor
    · rintro ⟨⟨data, table⟩, hschema, ⟨⟩⟩
      exact ⟨data, hschema⟩
    · rintro ⟨data, hschema⟩
      exact ⟨(data, table), hschema, rfl⟩
  rw [hrun]
  simp only [Describe.schema_eq_ok_iff, Prod.mk.injEq, hentries]
  constructor
  · rintro ⟨data, hstrings, hgrid, -, htable⟩
    exact ⟨hstrings, hgrid, htable⟩
  · rintro ⟨hstrings, hgrid, htable⟩
    exact ⟨_, hstrings, hgrid, rfl, htable⟩

example :
    stringTableOf "trip" [.union "route" ⟨"kind", ["road", "sea"]⟩
        [("sea", [.bool "calm"]), ("road", [.pointer "toll" "kind"])]] =
      .ok ⟨["trip", "route", "kind", "road", "sea", "toll", "calm"]⟩ := by
  rfl

end FieldGrammar
