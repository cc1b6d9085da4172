import Mathlib
import FieldGrammar.Base64Url
import FieldGrammar.Proofs.Octets
import FieldGrammar.Proofs.Results

/-!
# Texts of symbols

A text is read as octets when all of its characters are symbols, and then the octets are the whole
ones of the bits that the symbols stand for.  Reading loses the bits of the last symbol that
complete no octet, and writing fills up with zeros, so a text comes back from its octets when the
lost bits are zeros.  A text with one symbol too many for that loses a whole symbol and never comes
back.

Both loops carry a word with bits that are not complete yet.  What a loop has taken from the word
and what is still in it are together the bits that went in (`Base64Url.takeSymbols_spec`,
`Base64Url.takeOctet_spec`), so that a whole run is described by bits alone.  Texts are then
compared through their bits (`Base64Url.bitsOf`), which determine them.

## Main definitions

* `Base64Url.bitsOf` — the bits of the symbols of a text, one after the other
* `Base64Url.spareBits` — the bits of the last symbol that belong to no whole octet

## Main statements

* `Base64Url.bitsOf_encode` — the bits of a written text
* `Base64Url.decode_of_symbols`, `Base64Url.decode_of_foreign` — what is read and what is refused
* `Base64Url.decode_encode` — symbols give back the octets
* `Base64Url.decode_of_isPrefix` — fewer symbols give back fewer octets
* `Base64Url.codec_exact` — the codec as a whole
-/

namespace FieldGrammar

namespace Base64Url

/-! ### Values of symbols -/

/-- The six bits of the position that a symbol has in the alphabet. -/
def symbolBits (c : Char) : Bits :=
  Bits.ofNat 6 (alphabet.idxOf c)

/-- The bits of the symbols of a text, one after the other.  Of a character that is no symbol there
is nothing sensible to say; such texts are never read. -/
def bitsOf (text : List Char) : Bits :=
  text.flatMap symbolBits

/-- The bits of the last symbol that belong to no whole octet.  There are as many of them as the
bits of all symbols leave over. -/
def spareBits (text : List Char) : Bits :=
  match text.getLast? with
  | none => []
  | some last => (symbolBits last).drop (6 - 6 * text.length % 8)

theorem length_alphabet : alphabet.length = 64 := rfl

/-- The value of a symbol has six bits. -/
theorem idxOf_lt {c : Char} (h : c ∈ alphabet) : alphabet.idxOf c < 64 :=
  length_alphabet ▸ List.idxOf_lt_length_of_mem h

/-- Symbols are characters of one octet, so positions in a text of symbols are also positions in its
octets. -/
theorem toNat_lt {c : Char} (h : c ∈ alphabet) : c.toNat < 128 := by
  have hall : (alphabet.all fun d => d.toNat < 128) = true := by decide +kernel
  exact of_decide_eq_true (List.all_eq_true.1 hall c h)

/-- Entries of other characters leave an entry as it is. -/
theorem getD_foldl_of_notMem {pairs : List (Char × Nat)} {c : Char} (h : c ∉ pairs.map Prod.fst)
    (table : List UInt8) :
    (pairs.foldl setValue table).getD c.toNat invalid = table.getD c.toNat invalid := by
  induction pairs generalizing table with
  | nil => rfl
  | cons pair pairs ih =>
      rw [List.map_cons, List.mem_cons, not_or] at h
      have hne : pair.1.toNat ≠ c.toNat := fun heq => h.1 (Char.toNat_inj.1 heq.symm)
      rw [List.foldl_cons, ih h.2, setValue, List.getD_eq_getElem?_getD, List.getElem?_set_ne hne,
        ← List.getD_eq_getElem?_getD]

/-- Entries that are made once are found. -/
theorem getD_foldl_of_mem {pairs : List (Char × Nat)} (hnodup : (pairs.map Prod.fst).Nodup)
    {c : Char} {value : Nat} (h : (c, value) ∈ pairs) {table : List UInt8}
    (hlt : c.toNat < table.length) :
    (pairs.foldl setValue table).getD c.toNat invalid = UInt8.ofNat value := by
  induction pairs generalizing table with
  | nil => cases h
  | cons pair pairs ih =>
      rw [List.map_cons, List.nodup_cons] at hnodup
      rw [List.foldl_cons]
      rcases List.mem_cons.1 h with rfl | h
      · rw [getD_foldl_of_notMem hnodup.1, setValue, List.getD_eq_getElem?_getD,
          List.getElem?_set_self hlt, Option.getD_some]
      · exact ih hnodup.2 h (by rwa [setValue, List.length_set])

/-- The entry of a symbol is its position in the alphabet. -/
theorem toNat_valueOf {c : Char} (h : c ∈ alphabet) : (valueOf c).toNat = alphabet.idxOf c := by
  have hnodup : (alphabet.zipIdx.map Prod.fst).Nodup := by decide +kernel
  have hpair : (c, alphabet.idxOf c) ∈ alphabet.zipIdx :=
    List.mk_mem_zipIdx_iff_getElem?.2 (List.getElem?_idxOf h)
  have hlow : c.toNat < (List.replicate 256 invalid).length := by
    rw [List.length_replicate]
    exact (toNat_lt h).trans (by decide)
  rw [valueOf, values, getD_foldl_of_mem hnodup hpair hlow,
    UInt8.toNat_ofNat_of_lt' ((idxOf_lt h).trans (by decide))]

/-- The table has an entry for the symbols and for nothing else. -/
theorem isSymbol_iff {c : Char} : isSymbol c = true ↔ c ∈ alphabet := by
  rw [isSymbol, Bool.and_eq_true, decide_eq_true_iff, bne_iff_ne]
  constructor
  · rintro ⟨hlt, hentry⟩
    by_contra h
    have hnone : c ∉ alphabet.zipIdx.map Prod.fst := by rwa [List.zipIdx_map_fst]
    refine hentry ?_
    rw [valueOf, values, getD_foldl_of_notMem hnone, List.getD_replicate _ (by omega)]
  · intro h
    refine ⟨toNat_lt h, fun hinvalid => ?_⟩
    have hvalue := toNat_valueOf h
    have hlt := idxOf_lt h
    rw [hinvalid] at hvalue
    exact absurd (hvalue.trans_lt hlt) (by decide)

/-- The symbol of a value stands for the bits of the value. -/
theorem symbol_spec {value : UInt32} (h : value.toNat < 64) :
    symbol value ∈ alphabet ∧ symbolBits (symbol value) = Bits.ofNat 6 value.toNat := by
  have hall : ∀ n < 64,
      alphabet.getD n 'A' ∈ alphabet ∧ alphabet.idxOf (alphabet.getD n 'A') = n := by
    decide +kernel
  obtain ⟨hmem, hposition⟩ := hall _ h
  exact ⟨hmem, congrArg (Bits.ofNat 6) hposition⟩

/-! ### Bits of texts -/

theorem bitsOf_cons (c : Char) (text : List Char) :
    bitsOf (c :: text) = symbolBits c ++ bitsOf text := rfl

theorem bitsOf_append (text text' : List Char) :
    bitsOf (text ++ text') = bitsOf text ++ bitsOf text' :=
  List.flatMap_append

theorem bitsOf_singleton (c : Char) : bitsOf [c] = symbolBits c :=
  List.flatMap_singleton _ _

theorem length_symbolBits (c : Char) : (symbolBits c).length = 6 :=
  Bits.length_ofNat 6 _

theorem length_bitsOf (text : List Char) : (bitsOf text).length = 6 * text.length := by
  induction text with
  | nil => rfl
  | cons c rest ih =>
      rw [bitsOf_cons, List.length_append, length_symbolBits, ih, List.length_cons]
      omega

/-- Different symbols stand for different bits. -/
theorem eq_of_symbolBits_eq {c d : Char} (hc : c ∈ alphabet) (hd : d ∈ alphabet)
    (h : symbolBits c = symbolBits d) : c = d := by
  have hvalues := congrArg Bits.toNat h
  have hlt := idxOf_lt hc
  have hlt' := idxOf_lt hd
  rw [symbolBits, symbolBits, Bits.toNat_ofNat, Bits.toNat_ofNat] at hvalues
  exact (List.idxOf_inj hc).1 (by omega)

/-- **The bits of a text of symbols determine it**, six for each symbol. -/
theorem eq_of_bitsOf_eq {text text' : List Char} (htext : ∀ c ∈ text, c ∈ alphabet)
    (htext' : ∀ c ∈ text', c ∈ alphabet) (h : bitsOf text = bitsOf text') : text = text' := by
  have hlength := congrArg List.length h
  rw [length_bitsOf, length_bitsOf] at hlength
  induction text generalizing text' with
  | nil =>
      rw [List.length_nil, Nat.mul_zero] at hlength
      exact (List.length_eq_zero_iff.1 (by omega)).symm
  | cons c rest ih =>
      cases text' with
      | nil =>
          rw [List.length_cons, List.length_nil] at hlength
          omega
      | cons d rest' =>
          obtain ⟨hc, hrest⟩ := List.forall_mem_cons.1 htext
          obtain ⟨hd, hrest'⟩ := List.forall_mem_cons.1 htext'
          rw [bitsOf_cons, bitsOf_cons] at h
          obtain ⟨hfirst, hmore⟩ := List.append_inj h
            ((length_symbolBits c).trans (length_symbolBits d).symm)
          rw [List.length_cons, List.length_cons] at hlength
          rw [eq_of_symbolBits_eq hc hd hfirst, ih hrest hrest' hmore (by omega)]

/-- **The spare bits are those behind the last whole octet.**  Fewer than six bits are left over, so
they are bits of the last symbol, and only the last symbol is looked at. -/
theorem spareBits_eq (text : List Char) :
    spareBits text = (bitsOf text).drop (8 * (6 * text.length / 8)) := by
  obtain rfl | ⟨front, last, rfl⟩ := List.eq_nil_or_concat' text
  · rfl
  · have hlength := length_bitsOf front
    have hfront : (bitsOf front).length ≤ 8 * (6 * (front.length + 1) / 8) := by omega
    rw [spareBits, List.getLast?_concat, bitsOf_append, bitsOf_singleton, List.drop_append,
      List.length_append, List.length_singleton, List.drop_eq_nil_of_le hfront, List.nil_append,
      hlength]
    dsimp only
    congr 1
    omega

/-! ### Writing -/

theorem toNat_masked_lt (word : UInt32) : (word &&& 0x3F).toNat < 64 := by
  rw [UInt32.toNat_and]
  exact Nat.lt_succ_of_le Nat.and_le_right

/-- Cutting a word down leaves its low bits. -/
theorem low_lowBits (word : UInt32) {count : Nat} (h : count < 32) :
    Bits.low (lowBits word count) count = Bits.low word count := by
  have hall : ∀ n < 32, ((1 : UInt32) <<< UInt32.ofNat n - 1).toNat = 2 ^ n - 1 := by
    decide +kernel
  exact Bits.ofNat_and_mask word (hall count h)

/-- Symbols are taken until fewer than six bits are left, and stand for the bits that were in front
of these. -/
theorem takeSymbols_spec {word : UInt32} {count count' : Nat} {done done' : List Char}
    (h : takeSymbols word count done = (count', done')) (hcount : count < 32)
    (hdone : ∀ c ∈ done, c ∈ alphabet) :
    count' < 6 ∧ (∀ c ∈ done', c ∈ alphabet) ∧
      bitsOf done'.reverse ++ Bits.low word count' =
        bitsOf done.reverse ++ Bits.low word count := by
  fun_induction takeSymbols word count done with
  | case1 count done ih =>
      obtain ⟨hmem, hbits⟩ := symbol_spec (toNat_masked_lt (word >>> UInt32.ofNat count))
      obtain ⟨hlt, hall, heq⟩ := ih h (by omega) (List.forall_mem_cons.2 ⟨hmem, hdone⟩)
      refine ⟨hlt, hall, heq.trans ?_⟩
      rw [List.reverse_cons, bitsOf_append, bitsOf_singleton, hbits, List.append_assoc,
        Bits.low_take (k := 6) word rfl (by omega)]
  | case2 count done hless =>
      obtain ⟨rfl, rfl⟩ := Prod.mk.inj h
      exact ⟨Nat.lt_of_not_le fun h => hless (count - 6) (by omega), hdone, rfl⟩

/-- The last symbol stands for the bits that are left and zeros. -/
theorem symbol_shifted_spec (word : UInt32) {count : Nat} (hcount : count < 6) :
    symbol (word <<< UInt32.ofNat (6 - count) &&& 0x3F) ∈ alphabet ∧
      symbolBits (symbol (word <<< UInt32.ofNat (6 - count) &&& 0x3F)) =
        Bits.low word count ++ List.replicate (6 - count) false := by
  obtain ⟨hmem, hbits⟩ := symbol_spec (toNat_masked_lt (word <<< UInt32.ofNat (6 - count)))
  refine ⟨hmem, hbits.trans ?_⟩
  have hpush : Bits.low (word <<< UInt32.ofNat (6 - count) ||| 0) (count + (6 - count)) =
      Bits.low word count ++ Bits.ofNat (6 - count) 0 :=
    Bits.low_push word (Nat.two_pow_pos _) (by omega) (by omega)
  rw [UInt32.or_zero, Nat.add_sub_cancel' hcount.le, Bits.ofNat_zero_right] at hpush
  rw [Bits.ofNat_and_mask (k := 6) _ rfl, hpush]

/-- **Symbols of octets** stand for the bits of the word, those of the octets, and fewer than six
zeros to complete the last symbol. -/
theorem encodeFrom_spec (bytes : List UInt8) (word : UInt32) {count : Nat} (hcount : count < 6)
    {done : List Char} (hdone : ∀ c ∈ done, c ∈ alphabet) :
    (∀ c ∈ encodeFrom bytes word count done, c ∈ alphabet) ∧
      ∃ pad < 6, bitsOf (encodeFrom bytes word count done) =
        bitsOf done.reverse ++ Bits.low word count ++ Bits.ofBytes bytes ++
          List.replicate pad false := by
  -- The invariant is in the statement: the symbols done, the bits left in the word, and the octets
  -- to come are all the bits, in this order.
  induction bytes generalizing word count done with
  | nil =>
      rw [encodeFrom]
      split
      · next hpos =>
        obtain ⟨hmem, hbits⟩ := symbol_shifted_spec word hcount
        refine ⟨fun c hc => ?_, 6 - count, by omega, ?_⟩
        · exact List.forall_mem_cons.2 ⟨hmem, hdone⟩ c (List.mem_reverse.1 hc)
        · rw [List.reverse_cons, bitsOf_append, bitsOf_singleton, hbits, Bits.ofBytes_nil,
            List.append_nil, List.append_assoc]
      · next hzero =>
        obtain rfl : count = 0 := by omega
        refine ⟨fun c hc => hdone c (List.mem_reverse.1 hc), 0, by decide, ?_⟩
        rw [Bits.low_zero, Bits.ofBytes_nil, List.replicate_zero, List.append_nil, List.append_nil,
          List.append_nil]
  | cons byte rest ih =>
      have hbyte : byte.toUInt32.toNat < 2 ^ 8 := by
        rw [UInt8.toNat_toUInt32]
        exact byte.toNat_lt
      have hpushed : Bits.low (word <<< 8 ||| byte.toUInt32) (count + 8) =
          Bits.low word count ++ Bits.ofNat 8 byte.toUInt32.toNat :=
        Bits.low_push (w := 8) word hbyte (by decide) (by omega)
      obtain ⟨⟨left, taken⟩, htake⟩ : ∃ next,
          takeSymbols (word <<< 8 ||| byte.toUInt32) (count + 8) done = next := ⟨_, rfl⟩
      obtain ⟨hlt, hall, htaken⟩ := takeSymbols_spec htake (by omega) hdone
      rw [encodeFrom, htake]
      obtain ⟨hmem, pad, hpad, hbits⟩ := ih (lowBits (word <<< 8 ||| byte.toUInt32) left) hlt hall
      refine ⟨hmem, pad, hpad, hbits.trans ?_⟩
      rw [low_lowBits _ (by omega), htaken, hpushed, Bits.ofBytes_cons, UInt8.toNat_toUInt32,
        List.append_assoc, List.append_assoc, List.append_assoc, List.append_assoc,
        List.append_assoc, List.append_assoc]

/-- Written texts consist of symbols. -/
theorem mem_alphabet_of_mem_encode {bytes : List UInt8} :
    ∀ c ∈ (encode bytes).toList, c ∈ alphabet := by
  rw [encode, String.toList_ofList]
  exact (encodeFrom_spec bytes 0 (by decide) (List.forall_mem_nil _)).1

/-- **A written text has the bits of the octets** and fewer than six zeros to complete the last
symbol. With `eq_of_bitsOf_eq` this says which text is written. -/
theorem bitsOf_encode (bytes : List UInt8) :
    ∃ pad < 6, bitsOf (encode bytes).toList = Bits.ofBytes bytes ++ List.replicate pad false := by
  rw [encode, String.toList_ofList]
  exact (encodeFrom_spec bytes 0 (by decide) (List.forall_mem_nil _)).2

/-- Four symbols for three octets, rounded up: the last symbols of an incomplete group are written
as far as they hold bits. -/
theorem length_encode (bytes : List UInt8) : (encode bytes).length = 4 * bytes.length ⌈/⌉ 3 := by
  obtain ⟨pad, hpad, hbits⟩ := bitsOf_encode bytes
  have hlength := congrArg List.length hbits
  rw [length_bitsOf, String.length_toList, List.length_append, Bits.length_ofBytes,
    List.length_replicate] at hlength
  rw [Nat.ceilDiv_eq_add_pred_div]
  omega

/-! ### Reading -/

/-- An octet is taken if there are eight bits, and has the bits in front of those that are left. -/
theorem takeOctet_spec {word word' : UInt32} {count count' : Nat} {done done' : List UInt8}
    (h : takeOctet word count done = (word', count', done')) (hcount : count < 16) :
    count' < 8 ∧ Bits.ofBytes done'.reverse ++ Bits.low word' count' =
      Bits.ofBytes done.reverse ++ Bits.low word count := by
  rw [takeOctet] at h
  split at h
  · next hfull =>
    cases h
    obtain ⟨k, rfl⟩ := Nat.exists_eq_add_of_le' hfull
    rw [Nat.add_sub_cancel]
    have hoctet : Bits.ofNat 8 (word >>> UInt32.ofNat k &&& 0xFF).toUInt8.toNat =
        Bits.ofNat 8 (word >>> UInt32.ofNat k &&& 0xFF).toNat := by
      rw [UInt32.toNat_toUInt8, Bits.ofNat_mod]
    refine ⟨by omega, ?_⟩
    rw [List.reverse_cons, Bits.ofBytes_append, Bits.ofBytes_cons, Bits.ofBytes_nil,
      List.append_nil, hoctet, low_lowBits _ (by omega), List.append_assoc,
      Bits.low_take (k := 8) word rfl (by omega)]
  · next hless =>
    cases h
    exact ⟨by omega, rfl⟩

/-- **Symbols in front are read one by one.**  The octets taken and the bits left in the word are
all the bits that went in. -/
theorem decodeFrom_append {text : List Char} (htext : ∀ c ∈ text, c ∈ alphabet) (offset : Nat)
    (tail : List Char) (word : UInt32) (count : Nat) (hcount : count < 8) (done : List UInt8) :
    ∃ word' count' done', count' < 8 ∧
      Bits.ofBytes done'.reverse ++ Bits.low word' count' =
        Bits.ofBytes done.reverse ++ Bits.low word count ++ bitsOf text ∧
      decodeFrom offset (text ++ tail) word count done =
        decodeFrom (offset + (String.ofList text).utf8ByteSize) tail word' count' done' := by
  induction text generalizing offset word count done with
  | nil => exact ⟨word, count, done, hcount, (List.append_nil _).symm, rfl⟩
  | cons c text ih =>
      obtain ⟨hc, hrest⟩ := List.forall_mem_cons.1 htext
      have hvalue : (valueOf c).toUInt32.toNat < 2 ^ 6 := by
        rw [UInt8.toNat_toUInt32, toNat_valueOf hc]
        exact idxOf_lt hc
      have hpushed : Bits.low (word <<< 6 ||| (valueOf c).toUInt32) (count + 6) =
          Bits.low word count ++ symbolBits c := by
        rw [symbolBits, ← toNat_valueOf hc, ← UInt8.toNat_toUInt32]
        exact Bits.low_push (w := 6) word hvalue (by decide) (by omega)
      obtain ⟨⟨word₁, count₁, done₁⟩, htake⟩ : ∃ next, takeOctet
          (word <<< 6 ||| (valueOf c).toUInt32) (count + 6) done = next := ⟨_, rfl⟩
      obtain ⟨hlt, htaken⟩ := takeOctet_spec htake (by omega)
      obtain ⟨word', count', done', hlt', hbits, hrun⟩ :=
        ih hrest (offset + c.utf8Size) word₁ count₁ hlt done₁
      refine ⟨word', count', done', hlt', hbits.trans ?_, ?_⟩
      · rw [htaken, hpushed, bitsOf_cons, List.append_assoc, List.append_assoc, List.append_assoc]
      · rw [List.cons_append, decodeFrom, if_pos (isSymbol_iff.2 hc), htake]
        dsimp only
        rw [hrun, String.ofList_cons, String.utf8ByteSize_append, String.utf8ByteSize_singleton,
          Nat.add_assoc]

/-- **A text of symbols is read as the whole octets of its bits.**  What is left of the bits is
fewer than eight, and is not looked at. -/
theorem decode_of_symbols {token : String} (h : ∀ c ∈ token.toList, c ∈ alphabet) :
    ∃ bytes rest, decode token = .ok bytes ∧ rest.length < 8 ∧
      bitsOf token.toList = Bits.ofBytes bytes ++ rest := by
  obtain ⟨word, count, done, hcount, hbits, hrun⟩ := decodeFrom_append h 0 [] 0 0 (by decide) []
  refine ⟨done.reverse, Bits.low word count, ?_, by rwa [Bits.length_low], hbits.symm⟩
  rw [List.append_nil] at hrun
  rw [decode, hrun, decodeFrom]

/-- **The first foreign character is refused where it stands.**  Those before it are symbols, each
of which is one octet of the text. -/
theorem decode_of_foreign {token : String} {before after : List Char} {c : Char}
    (htoken : token.toList = before ++ c :: after) (hbefore : ∀ d ∈ before, d ∈ alphabet)
    (hc : c ∉ alphabet) :
    decode token =
      .error (.corruptToken token (.character c (String.ofList before).utf8ByteSize)) := by
  obtain ⟨word, count, done, -, -, hrun⟩ :=
    decodeFrom_append hbefore 0 (c :: after) 0 0 (by decide) []
  have hforeign : ¬isSymbol c = true := fun h => hc (isSymbol_iff.1 h)
  rw [decode, htoken, hrun, decodeFrom, if_neg hforeign, Nat.zero_add]

/-- A text that does not consist of symbols has a first foreign character. -/
theorem exists_first_foreign {text : List Char} (h : ∃ c ∈ text, c ∉ alphabet) :
    ∃ before c after, text = before ++ c :: after ∧ (∀ d ∈ before, d ∈ alphabet) ∧
      c ∉ alphabet := by
  simp only [← isSymbol_iff, Bool.not_eq_true] at h ⊢
  obtain ⟨c, hc, hforeign⟩ := h
  cases hfind : text.find? (!isSymbol ·) with
  | none =>
      have hnone := List.find?_eq_none.1 hfind c hc
      rw [hforeign] at hnone
      exact absurd rfl hnone
  | some d =>
      obtain ⟨hd, before, after, htext, hbefore⟩ := List.find?_eq_some_iff_append.1 hfind
      simp only [Bool.not_not, Bool.not_eq_true'] at hd hbefore
      exact ⟨before, d, after, htext, hbefore, hd⟩

/-- What is read is a text of symbols. -/
theorem exists_decode_iff {token : String} :
    (∃ bytes, decode token = .ok bytes) ↔ ∀ c ∈ token.toList, c ∈ alphabet := by
  constructor
  · rintro ⟨bytes, h⟩
    by_contra hforeign
    obtain ⟨before, c, after, htoken, hbefore, hc⟩ :=
      exists_first_foreign (by simpa only [not_forall, exists_prop] using hforeign)
    rw [decode_of_foreign htoken hbefore hc] at h
    cases h
  · intro h
    obtain ⟨bytes, -, hread, -⟩ := decode_of_symbols h
    exact ⟨bytes, hread⟩

/-- The octets that are read have the bits of the text in front of fewer than eight. -/
theorem bitsOf_of_decode {token : String} {bytes : List UInt8} (h : decode token = .ok bytes) :
    ∃ rest, rest.length < 8 ∧ bitsOf token.toList = Bits.ofBytes bytes ++ rest := by
  obtain ⟨bytes', rest, hread, hrest, hbits⟩ := decode_of_symbols (exists_decode_iff.1 ⟨bytes, h⟩)
  rw [h, Except.ok.injEq] at hread
  exact ⟨rest, hrest, hread ▸ hbits⟩

/-- Octets with fewer than eight bits behind them are read from a text with these bits. -/
theorem decode_of_bitsOf {token : String} (h : ∀ c ∈ token.toList, c ∈ alphabet)
    {bytes : List UInt8} {rest : Bits} (hrest : rest.length < 8)
    (hbits : bitsOf token.toList = Bits.ofBytes bytes ++ rest) : decode token = .ok bytes := by
  obtain ⟨bytes', rest', hread, hrest', hbits'⟩ := decode_of_symbols h
  rw [hread, (Bits.octets_unique (hbits'.symm.trans hbits) hrest' hrest).1]

/-! ### Reading and writing -/

/-- **Symbols give back the octets.**  The bits that fill up the last symbol do not complete an
octet, and decoding drops them. -/
theorem decode_encode (bytes : List UInt8) : decode (encode bytes) = .ok bytes := by
  obtain ⟨pad, hpad, hbits⟩ := bitsOf_encode bytes
  refine decode_of_bitsOf mem_alphabet_of_mem_encode ?_ hbits
  rw [List.length_replicate]
  omega

/-- **A cut text has lost an octet.**  The symbols before the last one hold fewer bits than the
octets, so that a proper prefix of the octets is read. -/
theorem decode_of_isPrefix {bytes : List UInt8} {cut : String}
    (hcut : cut.toList <+: (encode bytes).toList) (hne : cut ≠ encode bytes) :
    ∃ n < bytes.length, decode cut = .ok (bytes.take n) := by
  obtain ⟨more, hmore⟩ := hcut
  have hpos : 0 < more.length := by
    refine List.length_pos_iff.2 fun hnil => hne ?_
    rw [hnil, List.append_nil] at hmore
    exact String.toList_inj.1 hmore
  obtain ⟨pad, hpad, hbits⟩ := bitsOf_encode bytes
  rw [← hmore, bitsOf_append] at hbits
  have hlength := congrArg List.length hbits
  rw [List.length_append, List.length_append, length_bitsOf, length_bitsOf, Bits.length_ofBytes,
    List.length_replicate] at hlength
  have hcutBits : bitsOf cut.toList = (Bits.ofBytes bytes).take (6 * cut.toList.length) := by
    have htake := congrArg (List.take (6 * cut.toList.length)) hbits
    rwa [List.take_left' (length_bitsOf _), List.take_append_of_le_length
      (by rw [Bits.length_ofBytes]; omega)] at htake
  obtain ⟨rest, hrest, hsplit⟩ :=
    Bits.exists_take_ofBytes bytes (6 * cut.toList.length) (by omega)
  refine ⟨6 * cut.toList.length / 8, by omega,
    decode_of_bitsOf (fun c hc => ?_) hrest (hcutBits.trans hsplit)⟩
  exact mem_alphabet_of_mem_encode c (hmore ▸ List.mem_append_left _ hc)

/-- **A text comes back from its octets when no symbol is lost and the lost bits are zeros.**  A
symbol is lost when the text has one more than whole octets need. -/
theorem encode_of_decode_iff {token : String} {bytes : List UInt8} (h : decode token = .ok bytes) :
    encode bytes = token ↔
      token.length % 4 ≠ 1 ∧ ∀ bit ∈ spareBits token.toList, bit = false := by
  obtain ⟨pad, hpad, hwritten⟩ := bitsOf_encode bytes
  obtain ⟨rest, hrest, hread⟩ := bitsOf_of_decode h
  have hlength := congrArg List.length hread
  rw [length_bitsOf, String.length_toList, List.length_append, Bits.length_ofBytes] at hlength
  have hspare : spareBits token.toList = rest := by
    rw [spareBits_eq, hread, String.length_toList]
    refine List.drop_left' ?_
    rw [Bits.length_ofBytes]
    omega
  have htotal := congrArg List.length hwritten
  rw [length_bitsOf, String.length_toList, List.length_append, Bits.length_ofBytes,
    List.length_replicate] at htotal
  have hback : encode bytes = token ↔ List.replicate pad false = rest := by
    rw [← List.append_right_inj (Bits.ofBytes bytes), ← hwritten, ← hread, ← String.toList_inj]
    exact ⟨congrArg bitsOf,
      eq_of_bitsOf_eq mem_alphabet_of_mem_encode (exists_decode_iff.1 ⟨bytes, h⟩)⟩
  rw [hback, hspare]
  constructor
  · rintro rfl
    rw [List.length_replicate] at hlength hrest
    exact ⟨by omega, fun bit hbit => List.eq_of_mem_replicate hbit⟩
  · rintro ⟨hsymbols, hzero⟩
    -- Both fill up the whole octets to whole symbols, by fewer than six bits.
    have hless : rest.length < 6 := by omega
    rw [List.eq_replicate_of_mem hzero, show pad = rest.length by omega]

/-- **The codec is exact.**  Octets are written in as few symbols as hold their bits, and read back.
A text is read when it consists of symbols, as the whole octets of the bits that these stand for,
and otherwise it is refused at its first foreign character.  A text that is read is written again
when it has no symbol too many and its spare bits are zeros.  So several texts may be read as the
same octets, and exactly one of them is written. -/
theorem codec_exact :
    (∀ bytes : List UInt8,
      (encode bytes).length = 4 * bytes.length ⌈/⌉ 3 ∧
      (∀ c ∈ (encode bytes).toList, c ∈ alphabet) ∧
      decode (encode bytes) = .ok bytes) ∧
    ∀ token : String,
      ((∃ bytes, decode token = .ok bytes) ↔ ∀ c ∈ token.toList, c ∈ alphabet) ∧
      (∀ bytes, decode token = .ok bytes →
        bytes.length = 6 * token.length / 8 ∧
        Bits.ofBytes bytes <+: bitsOf token.toList ∧
        (encode bytes = token ↔
          token.length % 4 ≠ 1 ∧ ∀ bit ∈ spareBits token.toList, bit = false)) ∧
      ∀ before c after, token.toList = before ++ c :: after → (∀ d ∈ before, d ∈ alphabet) →
        c ∉ alphabet → decode token =
          .error (.corruptToken token (.character c (String.ofList before).utf8ByteSize)) := by
  refine ⟨fun bytes => ⟨length_encode bytes, mem_alphabet_of_mem_encode, decode_encode bytes⟩,
    fun token => ⟨exists_decode_iff, fun bytes h => ⟨?_, ?_, encode_of_decode_iff h⟩,
      fun before c after => decode_of_foreign⟩⟩
  · obtain ⟨rest, hrest, hbits⟩ := bitsOf_of_decode h
    have hlength := congrArg List.length hbits
    rw [length_bitsOf, String.length_toList, List.length_append, Bits.length_ofBytes] at hlength
    omega
  · obtain ⟨rest, -, hbits⟩ := bitsOf_of_decode h
    exact ⟨rest, hbits.symm⟩

/-- The text `Zh` has a spare bit that is one, so it does not come back from its octet; a padding
character is foreign and is found at its place. -/
theorem codec_exact_cutOctet :
    (decode "Zh" = .ok [102] ∧ ([102] : List UInt8).length = 6 * "Zh".length / 8 ∧
      Bits.ofBytes [102] <+: bitsOf "Zh".toList ∧
      (encode [102] = "Zh" ↔ "Zh".length % 4 ≠ 1 ∧ ∀ bit ∈ spareBits "Zh".toList, bit = false)) ∧
    decode "Zm9v=Yg" = .error (.corruptToken "Zm9v=Yg" (.character '=' 4)) := by
  have hread : decode "Zh" = .ok [102] := eq_ok_of_toOption (by decide +kernel)
  have hsize : (String.ofList ['Z', 'm', '9', 'v']).utf8ByteSize = 4 := by decide +kernel
  have htoken : "Zm9v=Yg".toList = ['Z', 'm', '9', 'v'] ++ '=' :: ['Y', 'g'] := by simp
  have hsymbols : ['Z', 'm', '9', 'v'].all isSymbol = true := by decide +kernel
  have hbefore : ∀ c ∈ ['Z', 'm', '9', 'v'], c ∈ alphabet := fun c hc =>
    isSymbol_iff.1 (List.all_eq_true.1 hsymbols c hc)
  have hforeign : '=' ∉ alphabet := by decide +kernel
  have hrefused := (codec_exact.2 "Zm9v=Yg").2.2 _ _ _ htoken hbefore hforeign
  rw [hsize] at hrefused
  exact ⟨⟨hread, (codec_exact.2 "Zh").2.1 [102] hread⟩, hrefused⟩

end Base64Url

end FieldGrammar
