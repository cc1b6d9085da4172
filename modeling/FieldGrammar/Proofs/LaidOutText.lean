import Mathlib
import FieldGrammar.Proofs.JsonText

/-!
# Text laid out over lines is read back

Text that is laid out has the tokens of compact text with blanks between them.  A blank is no token,
and it ends whatever word or numeral stands in front of it; so the lexer finds in laid-out text the
tokens that it finds in compact text, at every indentation.

## Main statements

* `Json.Lexes.newLine` — the beginning of a line has no tokens
* `Json.Lexes.pretty` — laid-out text is read as the tokens of its value
* `Json.ofText?_toPrettyText`, `Json.ofBytes?_pretty` — laid-out text is read back
-/

namespace FieldGrammar

namespace Json

section

variable {text : List Char} {tokens : List Token}

/-! ### Blanks -/

/-- A blank is no token. -/
theorem Lexes.blank {c : Char} (hc : Lexer.isBlank c = true) (h : Lexes text tokens) :
    Lexes (c :: text) tokens := by
  intro done
  have hstep : Lexer.step? .between done (.char c) = some (.between, done) := by
    show Lexer.begin? c done = _
    unfold Lexer.begin?
    exact if_pos hc
  rw [List.map_cons, Lexer.tokensFrom, hstep]
  exact h done

/-- An indentation has no tokens. -/
theorem Lexes.blanks (count : Nat) (h : Lexes text tokens) :
    Lexes (List.replicate count ' ' ++ text) tokens := by
  induction count with
  | zero => exact h
  | succ count ih => exact ih.blank rfl

/-- The beginning of a line has no tokens. -/
theorem Lexes.newLine (indent : Nat) (h : Lexes text tokens) :
    Lexes (newLine indent ++ text) tokens :=
  (h.blanks (2 * indent)).blank rfl

/-- What stands in front of a line ends there. -/
theorem delimited_newLine (indent : Nat) : Delimited (newLine indent ++ text) :=
  delimited_cons ⟨rfl, rfl⟩

/-! ### Values -/

/-- The lines of the items have the tokens of the items, with a comma after each but the last. -/
theorem Lexes.prettyItems {indent : Nat} {items : List Json}
    (hitem : ∀ item ∈ items, ∀ text tokens, Delimited text → Lexes text tokens →
      Lexes (item.pretty indent ++ text) (tokensOf item ++ tokens))
    (hend : Delimited text) (h : Lexes text tokens) :
    Lexes (Json.prettyItems indent items ++ text) (itemTokens items ++ tokens) := by
  -- An item is delimited by the comma behind it or, if it is the last, by the next line.
  induction items with
  | nil => exact h
  | cons item rest ih =>
      obtain ⟨hfirst, hrest⟩ := List.forall_mem_cons.1 hitem
      cases rest with
      | nil =>
          have hline := (hfirst text tokens hend h).newLine indent
          rw [Json.prettyItems, itemTokens, List.append_assoc]
          exact hline
      | cons next rest =>
          have hmore := (ih hrest).mark (show Lexer.mark? ',' = some .comma from rfl)
          have hline := (hfirst _ _ (delimited_cons ⟨rfl, rfl⟩) hmore).newLine indent
          rw [Json.prettyItems, itemTokens]
          · simpa using hline
          · exact List.cons_ne_nil next rest
          · exact List.cons_ne_nil next rest

/-- The lines of the members have the tokens of the members: a name, a colon and a value. -/
theorem Lexes.prettyMembers {indent : Nat} {members : List (String × Json)}
    (hvalue : ∀ entry ∈ members, ∀ text tokens, Delimited text → Lexes text tokens →
      Lexes (entry.2.pretty indent ++ text) (tokensOf entry.2 ++ tokens))
    (hend : Delimited text) (h : Lexes text tokens) :
    Lexes (Json.prettyMembers indent members ++ text) (memberTokens members ++ tokens) := by
  induction members with
  | nil => exact h
  | cons entry rest ih =>
      obtain ⟨hfirst, hrest⟩ := List.forall_mem_cons.1 hvalue
      obtain ⟨key, value⟩ := entry
      -- One blank stands between the colon and the value.
      have hmember : ∀ text tokens, Lexes (value.pretty indent ++ text) tokens →
          Lexes (Json.newLine indent ++
            (Json.quote key ++ ':' :: ' ' :: (value.pretty indent ++ text)))
            (.text (some key) :: .colon :: tokens) := by
        intro text tokens hvalue
        have hcolon := (hvalue.blank (show Lexer.isBlank ' ' = true from rfl)).mark
          (show Lexer.mark? ':' = some .colon from rfl)
        exact (hcolon.quote key).newLine indent
      cases rest with
      | nil =>
          have hline := hmember text _ (hfirst text tokens hend h)
          rw [Json.prettyMembers, memberTokens]
          simpa using hline
      | cons next rest =>
          have hmore := (ih hrest).mark (show Lexer.mark? ',' = some .comma from rfl)
          have hline := hmember _ _ (hfirst _ _ (delimited_cons ⟨rfl, rfl⟩) hmore)
          rw [Json.prettyMembers, memberTokens]
          · simpa using hline
          · exact List.cons_ne_nil next rest
          · exact List.cons_ne_nil next rest

end

/-- **Laid-out text is read as the tokens of its value**, at every indentation.  The proof follows
the value as that for compact text does, with the beginnings of lines to pass over. -/
theorem Lexes.pretty {value : Json} (hvalue : Legible value) (indent : Nat) {text : List Char}
    {tokens : List Token} (hend : Delimited text) (h : Lexes text tokens) :
    Lexes (value.pretty indent ++ text) (tokensOf value ++ tokens) := by
  induction hvalue generalizing indent text tokens with
  | null => exact Lexes.compact .null hend h
  | bool b =>
      cases b with
      | true => exact Lexes.compact (.bool true) hend h
      | false => exact Lexes.compact (.bool false) hend h
  | int hmin hmax => exact Lexes.compact (.int hmin hmax) hend h
  | real hread => exact Lexes.compact (.real hread) hend h
  | string s => exact Lexes.compact (.string s) hend h
  | @array items _ ih =>
      have hclose := h.mark (show Lexer.mark? ']' = some .closeArray from rfl)
      cases items with
      | nil => exact hclose.mark (show Lexer.mark? '[' = some .openArray from rfl)
      | cons item rest =>
          have hitems := Lexes.prettyItems
            (fun item hitem text tokens => ih item hitem (indent + 1))
            (delimited_newLine indent) (hclose.newLine indent)
          have hall := hitems.mark (show Lexer.mark? '[' = some .openArray from rfl)
          rw [Json.pretty, tokensOf]
          simpa using hall
  | @object members _ ih =>
      have hclose := h.mark (show Lexer.mark? '}' = some .closeObject from rfl)
      cases members with
      | nil => exact hclose.mark (show Lexer.mark? '{' = some .openObject from rfl)
      | cons entry rest =>
          have hmembers := Lexes.prettyMembers
            (fun entry hentry text tokens => ih entry hentry (indent + 1))
            (delimited_newLine indent) (hclose.newLine indent)
          have hall := hmembers.mark (show Lexer.mark? '{' = some .openObject from rfl)
          rw [Json.pretty, tokensOf]
          simpa using hall

/-! ### Whole texts -/

/-- A legible value is read from its laid-out text.  The tokens are those of compact text, so only
the lexer is of concern here. -/
theorem ofPieces?_pretty {value : Json} (h : Legible value) :
    ofPieces? ((value.pretty 0).map .char) = some value := by
  have hlexes := Lexes.pretty h 0 delimited_nil Lexes.nil
  rw [List.append_nil, List.append_nil] at hlexes
  exact ofPieces?_of_lexes h hlexes

/-- **Laid-out text is read back.** -/
theorem ofText?_toPrettyText {value : Json} (h : Legible value) :
    ofText? value.toPrettyText = some value := by
  rw [ofText?, toPrettyText, String.toList_ofList, ofPieces?_pretty h]

/-- **The octets of laid-out text are read back.** -/
theorem ofBytes?_pretty {value : Json} (h : Legible value) :
    ofBytes? (Utf8.encode (value.pretty 0)) = some value := by
  rw [ofBytes?, Utf8.pieces_encode, ofPieces?_pretty h]

end Json

end FieldGrammar
