import Mathlib
import FieldGrammar.Text.Utf8

/-!
# Characters and their octets

Reading octets as text and writing text as octets undo each other in both directions: the octets
of characters decode to these characters, and octets that decode at all are those of the
characters found.  The second direction is what makes a decoded string table no longer than the
octets it came from.

Both directions rest on one description of the octets that a character may start with
(`Utf8.firstPiece_eq_char_iff`): a first octet that announces the length, and as many further
octets in the range that the first one leaves.

## Main statements

* `Utf8.decode_encode` — text survives being written and read
* `Utf8.encode_of_decode` — octets that are text are the octets of that text
-/

namespace FieldGrammar

namespace Utf8

/-! ### Ranges of octets -/

private theorem lengthOf_eq (a : UInt8) : lengthOf a =
    if a.toNat < 128 then 1 else if a.toNat < 194 then 0 else if a.toNat < 224 then 2
    else if a.toNat < 240 then 3 else if a.toNat < 245 then 4 else 0 := by
  simp only [lengthOf, UInt8.lt_iff_toNat_lt]
  rfl

/-- The first octets that announce each of the four lengths. -/
private theorem lengthOf_iff (a : UInt8) :
    (lengthOf a = 1 ↔ a.toNat < 128) ∧ (lengthOf a = 2 ↔ 194 ≤ a.toNat ∧ a.toNat < 224) ∧
      (lengthOf a = 3 ↔ 224 ≤ a.toNat ∧ a.toNat < 240) ∧
      (lengthOf a = 4 ↔ 240 ≤ a.toNat ∧ a.toNat < 245) := by
  rw [lengthOf_eq]
  split_ifs <;> simp <;> omega

private theorem isContinuation_iff (b : UInt8) :
    isContinuation b = true ↔ 128 ≤ b.toNat ∧ b.toNat ≤ 191 := by
  simp only [isContinuation, Bool.and_eq_true, decide_eq_true_eq, UInt8.le_iff_toNat_le]
  rfl

/-- The range of the second octet, by the first one.  It is narrower for the four first octets that
would otherwise write a character in too many octets, a surrogate, or a number beyond the last
character. -/
private theorem acceptsSecond_iff (a b : UInt8) : acceptsSecond a b = true ↔
    (if a.toNat = 224 then 160 ≤ b.toNat ∧ b.toNat ≤ 191
      else if a.toNat = 237 then 128 ≤ b.toNat ∧ b.toNat ≤ 159
      else if a.toNat = 240 then 144 ≤ b.toNat ∧ b.toNat ≤ 191
      else if a.toNat = 244 then 128 ≤ b.toNat ∧ b.toNat ≤ 143
      else 128 ≤ b.toNat ∧ b.toNat ≤ 191) := by
  simp only [acceptsSecond, ← UInt8.toNat_inj]
  split_ifs <;> simp_all [UInt8.le_iff_toNat_le, isContinuation_iff]

/-! ### One character -/

/-- The octets that a character may start with: there is a case for each length, with the ranges of
the octets and the number that they write. -/
theorem firstPiece_eq_char_iff {a : UInt8} {b c d : Option UInt8} {char : Char} {n : Nat} :
    firstPiece a b c d = (.char char, n) ↔
      (lengthOf a = 1 ∧ char = Char.ofNat a.toNat ∧ n = 1) ∨
      (lengthOf a = 2 ∧ ∃ b', b = some b' ∧ isContinuation b' = true ∧
        char = Char.ofNat (a.toNat % 32 * 64 + low b') ∧ n = 2) ∨
      (lengthOf a = 3 ∧ ∃ b' c', b = some b' ∧ c = some c' ∧ acceptsSecond a b' = true ∧
        isContinuation c' = true ∧
        char = Char.ofNat ((a.toNat % 16 * 64 + low b') * 64 + low c') ∧ n = 3) ∨
      (lengthOf a = 4 ∧ ∃ b' c' d', b = some b' ∧ c = some c' ∧ d = some d' ∧
        acceptsSecond a b' = true ∧ isContinuation c' = true ∧ isContinuation d' = true ∧
        char = Char.ofNat (((a.toNat % 8 * 64 + low b') * 64 + low c') * 64 + low d') ∧
        n = 4) := by
  constructor
  · intro h
    -- One case for each announced length; within it, a missing octet or one out of range is no
    -- character.
    unfold firstPiece at h
    split at h
    · simp_all
    · next hl =>
      cases b with
      | none => simp at h
      | some b =>
          by_cases hb : isContinuation b = true
          · simp_all
          · simp [hb] at h
    · next hl =>
      cases b with
      | none => simp at h
      | some b =>
          by_cases hb : acceptsSecond a b = true
          · cases c with
            | none => simp [hb] at h
            | some c =>
                by_cases hc : isContinuation c = true
                · simp_all
                · simp [hb, hc] at h
          · simp [hb] at h
    · next hl =>
      cases b with
      | none => simp at h
      | some b =>
          by_cases hb : acceptsSecond a b = true
          · cases c with
            | none => simp [hb] at h
            | some c =>
                by_cases hc : isContinuation c = true
                · cases d with
                  | none => simp [hb, hc] at h
                  | some d =>
                      by_cases hd : isContinuation d = true
                      · simp_all
                      · simp [hb, hc, hd] at h
                · simp [hb, hc] at h
          · simp [hb] at h
    · simp at h
  · rintro (⟨hl, rfl, rfl⟩ | ⟨hl, b, rfl, hb, rfl, rfl⟩ | ⟨hl, b, c, rfl, rfl, hb, hc, rfl, rfl⟩ |
      ⟨hl, b, c, d, rfl, rfl, rfl, hb, hc, hd, rfl, rfl⟩)
    · simp [firstPiece, hl]
    · simp [firstPiece, hl, hb]
    · simp [firstPiece, hl, hb, hc]
    · simp [firstPiece, hl, hb, hc, hd]

private theorem toNat_octet {n : Nat} (h : n < 256) : (UInt8.ofNat n).toNat = n :=
  UInt8.toNat_ofNat_of_lt' h

private theorem octet_eq {a : UInt8} {n : Nat} (h : n = a.toNat) : UInt8.ofNat n = a := by
  rw [h, UInt8.ofNat_toNat]

/-- The octets of a character are read as that character, whatever follows. -/
private theorem firstPiece_encodeChar (char : Char) :
    ∃ a tail, String.utf8EncodeChar char = a :: tail ∧ ∀ rest : List UInt8,
      firstPiece a (tail ++ rest)[0]? (tail ++ rest)[1]? (tail ++ rest)[2]? =
        (.char char, tail.length + 1) := by
  have hvalid : char.toNat < 55296 ∨ (57343 < char.toNat ∧ char.toNat < 1114112) := char.valid
  have hchar : char = Char.ofNat char.toNat := (Char.ofNat_toNat char).symm
  have hval : char.val.toNat = char.toNat := rfl
  simp only [String.utf8EncodeChar, hval]
  generalize char.toNat = v at *
  -- The four lengths: the announced length and the ranges are arithmetic on the number `v`.
  split_ifs with h1 h2 h3
  · refine ⟨_, _, rfl, fun rest => firstPiece_eq_char_iff.2 (.inl ⟨?_, ?_, rfl⟩)⟩
    · rw [(lengthOf_iff _).1, toNat_octet (by omega)]
      omega
    · rw [toNat_octet (by omega), hchar]
  · refine ⟨_, _, rfl, fun rest => firstPiece_eq_char_iff.2
      (.inr (.inl ⟨?_, _, rfl, ?_, ?_, rfl⟩))⟩
    · rw [(lengthOf_iff _).2.1, toNat_octet (by omega)]
      omega
    · rw [isContinuation_iff, toNat_octet (by omega)]
      omega
    · rw [low, toNat_octet (by omega), toNat_octet (by omega), hchar]
      congr 1
      omega
  · refine ⟨_, _, rfl, fun rest => firstPiece_eq_char_iff.2
      (.inr (.inr (.inl ⟨?_, _, _, rfl, rfl, ?_, ?_, ?_, rfl⟩)))⟩
    · rw [(lengthOf_iff _).2.2.1, toNat_octet (by omega)]
      omega
    · rw [acceptsSecond_iff, toNat_octet (by omega), toNat_octet (by omega)]
      split_ifs <;> omega
    · rw [isContinuation_iff, toNat_octet (by omega)]
      omega
    · rw [low, low, toNat_octet (by omega), toNat_octet (by omega), toNat_octet (by omega), hchar]
      congr 1
      omega
  · refine ⟨_, _, rfl, fun rest => firstPiece_eq_char_iff.2
      (.inr (.inr (.inr ⟨?_, _, _, _, rfl, rfl, rfl, ?_, ?_, ?_, ?_, rfl⟩)))⟩
    · rw [(lengthOf_iff _).2.2.2, toNat_octet (by omega)]
      omega
    · rw [acceptsSecond_iff, toNat_octet (by omega), toNat_octet (by omega)]
      split_ifs <;> omega
    · rw [isContinuation_iff, toNat_octet (by omega)]
      omega
    · rw [isContinuation_iff, toNat_octet (by omega)]
      omega
    · rw [low, low, low, toNat_octet (by omega), toNat_octet (by omega), toNat_octet (by omega),
        toNat_octet (by omega), hchar]
      congr 1
      omega

/-- A number that is no surrogate and not too great is the number of its character. -/
private theorem val_ofNat {v : Nat} (hvalid : v < 55296 ∨ (57343 < v ∧ v < 1114112)) :
    (Char.ofNat v).val.toNat = v := by
  have h : v.isValidChar := hvalid
  exact (Char.toNat_ofNat v).trans (if_pos h)

/-- The octets of the character with a given number. -/
private theorem encodeChar_eq {char : Char} {v : Nat} (h : char.val.toNat = v) :
    String.utf8EncodeChar char =
      if v ≤ 127 then [UInt8.ofNat v]
      else if v ≤ 2047 then [UInt8.ofNat (v / 64 % 32 + 192), UInt8.ofNat (v % 64 + 128)]
      else if v ≤ 65535 then
        [UInt8.ofNat (v / 4096 % 16 + 224), UInt8.ofNat (v / 64 % 64 + 128),
          UInt8.ofNat (v % 64 + 128)]
      else
        [UInt8.ofNat (v / 262144 % 8 + 240), UInt8.ofNat (v / 4096 % 64 + 128),
          UInt8.ofNat (v / 64 % 64 + 128), UInt8.ofNat (v % 64 + 128)] := by
  subst h
  rfl

/-- The octets looked at are the first ones of what follows. -/
private theorem prefix_of_getElem? {more tail : List UInt8}
    (h : ∀ i < more.length, tail[i]? = more[i]?) : more <+: tail := by
  rw [List.prefix_iff_getElem?]
  intro i hi
  rw [h i hi, List.getElem?_eq_getElem hi]

/-- Octets that are read as a character are the octets of that character.  A character has one form,
since longer ones are not accepted. -/
private theorem encodeChar_of_firstPiece {a : UInt8} (tail : List UInt8) {char : Char} {n : Nat}
    (h : firstPiece a tail[0]? tail[1]? tail[2]? = (.char char, n)) :
    ∃ more, more.length = n - 1 ∧ more <+: tail ∧ String.utf8EncodeChar char = a :: more := by
  rw [firstPiece_eq_char_iff] at h
  rcases h with ⟨hl, rfl, rfl⟩ | ⟨hl, b, hb, hcont, rfl, rfl⟩ |
    ⟨hl, b, c, hb, hc, hacc, hcont, rfl, rfl⟩ |
    ⟨hl, b, c, d, hb, hc, hd, hacc, hcont, hcont', rfl, rfl⟩
  · rw [(lengthOf_iff a).1] at hl
    refine ⟨[], rfl, List.nil_prefix, ?_⟩
    rw [encodeChar_eq (val_ofNat (by omega)), if_pos (by omega), UInt8.ofNat_toNat]
  · rw [(lengthOf_iff a).2.1] at hl
    rw [isContinuation_iff] at hcont
    refine ⟨[b], rfl, prefix_of_getElem? fun i hi => ?_, ?_⟩
    · obtain rfl : i = 0 := by simpa using hi
      exact hb
    · rw [low, encodeChar_eq (val_ofNat (by omega)), if_neg (by omega), if_pos (by omega),
        octet_eq (a := a) (by omega), octet_eq (a := b) (by omega)]
  · rw [(lengthOf_iff a).2.2.1] at hl
    rw [acceptsSecond_iff] at hacc
    rw [isContinuation_iff] at hcont
    have hrange : 128 ≤ b.toNat ∧ b.toNat ≤ 191 ∧ (a.toNat = 224 → 160 ≤ b.toNat) ∧
        (a.toNat = 237 → b.toNat ≤ 159) := by
      split_ifs at hacc <;> omega
    refine ⟨[b, c], rfl, prefix_of_getElem? fun i hi => ?_, ?_⟩
    · match i, hi with
      | 0, _ => exact hb
      | 1, _ => exact hc
    · rw [low, low, encodeChar_eq (val_ofNat (by omega)), if_neg (by omega), if_neg (by omega),
        if_pos (by omega), octet_eq (a := a) (by omega), octet_eq (a := b) (by omega),
        octet_eq (a := c) (by omega)]
  · rw [(lengthOf_iff a).2.2.2] at hl
    rw [acceptsSecond_iff] at hacc
    rw [isContinuation_iff] at hcont hcont'
    have hrange : 128 ≤ b.toNat ∧ b.toNat ≤ 191 ∧ (a.toNat = 240 → 144 ≤ b.toNat) ∧
        (a.toNat = 244 → b.toNat ≤ 143) := by
      split_ifs at hacc <;> omega
    refine ⟨[b, c, d], rfl, prefix_of_getElem? fun i hi => ?_, ?_⟩
    · match i, hi with
      | 0, _ => exact hb
      | 1, _ => exact hc
      | 2, _ => exact hd
    · rw [low, low, low, encodeChar_eq (val_ofNat (by omega)), if_neg (by omega),
        if_neg (by omega), if_neg (by omega), octet_eq (a := a) (by omega),
        octet_eq (a := b) (by omega), octet_eq (a := c) (by omega), octet_eq (a := d) (by omega)]

/-! ### Whole texts -/

/-- Octets of a piece that was already found are passed over. -/
private theorem piecesFrom_skip (taken rest : List UInt8) (done : List Piece) :
    piecesFrom (taken ++ rest) taken.length done = piecesFrom rest 0 done := by
  induction taken with
  | nil => rfl
  | cons a taken ih => exact ih

/-- One step of the reader: a piece is found at the first octet, and as many octets as it spans are
skipped. -/
private theorem piecesFrom_cons (a : UInt8) (tail : List UInt8) (done : List Piece) :
    piecesFrom (a :: tail) 0 done =
      piecesFrom tail ((firstPiece a tail[0]? tail[1]? tail[2]?).2 - 1)
        ((firstPiece a tail[0]? tail[1]? tail[2]?).1 :: done) := rfl

/-- Pieces already found stay in front. -/
private theorem piecesFrom_eq (bytes : List UInt8) (skip : Nat) (done : List Piece) :
    piecesFrom bytes skip done = done.reverse ++ piecesFrom bytes skip [] := by
  induction bytes generalizing skip done with
  | nil => simp [piecesFrom]
  | cons a rest ih =>
      cases skip with
      | zero =>
          rw [piecesFrom_cons, piecesFrom_cons, ih _ (_ :: done), ih _ [_]]
          simp
      | succ skip => exact ih skip done

/-- The pieces of written text are its characters. -/
theorem pieces_encode (chars : List Char) :
    pieces (encode chars) = chars.map Piece.char := by
  rw [pieces]
  induction chars with
  | nil => rfl
  | cons char chars ih =>
      obtain ⟨a, tail, henc, hfirst⟩ := firstPiece_encodeChar char
      have hsplit : encode (char :: chars) = a :: (tail ++ encode chars) := by
        rw [encode, List.flatMap_cons, henc]
        rfl
      rw [hsplit, piecesFrom_cons, hfirst (encode chars), Nat.add_sub_cancel, piecesFrom_skip,
        piecesFrom_eq, ih]
      rfl

/-- The characters of pieces that are characters, with those already found in front. -/
private theorem charsFrom_map_char (index : Nat) (chars done : List Char) :
    charsFrom index (chars.map Piece.char) done = .ok (done.reverse ++ chars) := by
  induction chars generalizing index done with
  | nil => simp [charsFrom]
  | cons char chars ih => simp [charsFrom, ih]

/-- **Text survives being written and read.** -/
theorem decode_encode (chars : List Char) : decode (encode chars) = .ok chars := by
  rw [decode, pieces_encode]
  exact charsFrom_map_char 0 chars []

/-- Pieces that decode are characters. -/
private theorem eq_map_char_of_charsFrom {index : Nat} {pieces : List Piece}
    {done chars : List Char} (h : charsFrom index pieces done = .ok chars) :
    ∃ more, pieces = more.map Piece.char ∧ chars = done.reverse ++ more := by
  induction pieces generalizing index done with
  | nil =>
      cases h
      exact ⟨[], rfl, (List.append_nil _).symm⟩
  | cons piece pieces ih =>
      cases piece with
      | char c =>
          obtain ⟨more, rfl, rfl⟩ := ih h
          exact ⟨c :: more, rfl, by simp⟩
      | stray length => simp [charsFrom] at h
      | cut => simp [charsFrom] at h

/-- Pieces that are all characters cover the octets that write these characters. -/
private theorem encode_of_piecesFrom {bytes : List UInt8} {skip : Nat} {chars : List Char}
    (hskip : skip ≤ bytes.length) (h : piecesFrom bytes skip [] = chars.map Piece.char) :
    encode chars = bytes.drop skip := by
  induction bytes generalizing skip chars with
  | nil =>
      obtain rfl : chars = [] := List.map_eq_nil_iff.1 h.symm
      rw [List.drop_nil]
      rfl
  | cons a rest ih =>
      cases skip with
      | succ skip => exact ih (Nat.le_of_succ_le_succ hskip) h
      | zero =>
          rw [piecesFrom_cons, piecesFrom_eq] at h
          cases chars with
          | nil => simp at h
          | cons char chars =>
              obtain ⟨hpiece, hrest⟩ := List.cons.inj h
              obtain ⟨more, hlen, hprefix, henc⟩ := encodeChar_of_firstPiece rest
                (Prod.ext hpiece rfl)
              have htail := ih (hlen ▸ hprefix.length_le) hrest
              have hencode : encode (char :: chars) = a :: more ++ encode chars := by
                rw [encode, List.flatMap_cons, henc]
                rfl
              obtain ⟨left, rfl⟩ := hprefix
              rw [hencode, htail, ← hlen, List.drop_left]
              rfl

/-- **Octets that are text are the octets of that text.**  So nothing is replaced or left out in
reading text. -/
theorem encode_of_decode {bytes : List UInt8} {chars : List Char}
    (h : decode bytes = .ok chars) : encode chars = bytes := by
  obtain ⟨more, hpieces, rfl⟩ := eq_map_char_of_charsFrom h
  exact encode_of_piecesFrom (Nat.zero_le _) hpieces

end Utf8

end FieldGrammar
