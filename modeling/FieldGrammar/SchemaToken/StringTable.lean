import FieldGrammar.Data.Entries
import FieldGrammar.Error

/-!
# The string table

Names and options are written to packed schema tokens as indices into a table of strings that
travels in the same token.  The first occurrence of a string fixes its index and later ones
reuse it.  In the token the entries are joined by a separator character, so no entry may
contain it; reading splits them again and indices line up.

## Main definitions

* `StringTable.intern` — the index of a string, which is added if it is new
* `StringTable.entry` — the string at an index
* `StringTable.toBytes`, `StringTable.ofBytes` — the written form
-/

namespace FieldGrammar

/-- Strings in the order of their indices.  The entries are distinct, and those that were
interned do not contain the separator. -/
structure StringTable where
  entries : List String
  deriving DecidableEq, Repr, Inhabited

namespace StringTable

/-- The character between two entries. -/
def separator : Char := '\x1f'

/-- The table without entries. -/
def empty : StringTable := ⟨[]⟩

/-- The number of entries. -/
def size (table : StringTable) : Nat :=
  table.entries.length

/-- The index of a string, if it is an entry. -/
def indexOf? (table : StringTable) (s : String) : Option Nat :=
  table.entries.idxOf? s

/-- The index of a string, which is added at the end if it is no entry yet.  A string with the
separator in it cannot be added. -/
def intern (table : StringTable) (s : String) : Except TableFault (Nat × StringTable) :=
  match table.indexOf? s with
  | some index => .ok (index, table)
  | none =>
    if s.toList.contains separator then .error (.separator s)
    else .ok (table.size, ⟨table.entries ++ [s]⟩)

/-- The string at an index. -/
def entry (table : StringTable) (index : Nat) : Except TableFault String :=
  match table.entries[index]? with
  | some s => .ok s
  | none => .error (.index index table.size)

/-- Whether two tables have the same entries, in whatever order. -/
def sameEntries (a b : StringTable) : Bool :=
  a.size == b.size && a.entries.all b.entries.contains

/-- The characters of a list of entries with the separator between any two of them. -/
def join : List String → List Char
  | [] => []
  | [s] => s.toList
  | s :: rest => s.toList ++ separator :: join rest

/-- The pieces of a text between separators; `piece` and `done` hold the current piece and the
finished ones in reverse. -/
def splitFrom : List Char → (piece : List Char) → (done : List String) → List String
  | [], piece, done => (String.ofList piece.reverse :: done).reverse
  | c :: rest, piece, done =>
    if c = separator then splitFrom rest [] (String.ofList piece.reverse :: done)
    else splitFrom rest (c :: piece) done

/-- The pieces of a text between separators; there is always at least one. -/
def split (chars : List Char) : List String :=
  splitFrom chars [] []

/-- The octets of a table.  A table without entries and one with the empty string alone have
the same written form. -/
def toBytes (table : StringTable) : List UInt8 :=
  Utf8.encode (join table.entries)

/-- The table that octets write.  They must be text, and no entry may repeat. -/
def ofBytes (bytes : List UInt8) : Except TableFault StringTable :=
  match Utf8.decode bytes with
  | .error fault => .error (.encoding fault)
  | .ok chars =>
    let entries := split chars
    match firstRepeated? entries with
    | some s => .error (.repeated s)
    | none => .ok ⟨entries⟩

@[simp] theorem size_empty : empty.size = 0 := rfl

end StringTable

end FieldGrammar
