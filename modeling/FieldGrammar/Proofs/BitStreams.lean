import Mathlib
import FieldGrammar.Bits.Reader
import FieldGrammar.Proofs.Reading

/-!
# Words in a stream of bits

A writer appends words of declared widths to octets, and a cursor reads words of declared widths
from octets.  Both go bit by bit, and fields begin and end anywhere within an octet.

**Writing.**  A word adds its low bits to the bits that the octets show, so that a sequence of words
shows the bits of all of them, one word after the other.

**Reading.**  What a cursor has before it is a bit string, the bits of its octets from its position
on.  A read takes bits from the front of it and returns the number that they write; if there are too
few, the cursor is left as it was.  So a read of `k + m` bits is a read of `k` and one of `m`, and
whatever words were written are read back in their widths.

## Main definitions

* `BitWriter.writeAll` — words one after the other
* `BitCursor.unread` — the bits that a cursor has before it
* `BitCursor.view` — the reader of these bits

## Main statements

* `BitWriter.write_eq_foldl` — a word is written as its low bits
* `BitCursor.run_read_of_le` — the word that is read
* `BitCursor.run_reads_of_unread` — a sequence of words that is read back
* `reads_writeAll_and_read_eq_error_iff` — words through octets
-/

namespace FieldGrammar

/-! ### Writing words -/

namespace BitWriter

open Bits

/-- Appends words in some widths. -/
def writeAll (w : BitWriter) (writes : List (UInt64 × Nat)) : BitWriter :=
  writes.foldl (fun w write => w.write write.1 write.2) w

/-- The bits of words in some widths, one word after the other.  Of each word the low bits count,
from the most significant one on. -/
def bitsOf (writes : List (UInt64 × Nat)) : Bits :=
  writes.flatMap fun write => ofNat write.2 write.1.toNat

theorem bitsOf_cons (write : UInt64 × Nat) (writes : List (UInt64 × Nat)) :
    bitsOf (write :: writes) = ofNat write.2 write.1.toNat ++ bitsOf writes :=
  List.flatMap_cons

theorem length_bitsOf (writes : List (UInt64 × Nat)) :
    (bitsOf writes).length = (writes.map Prod.snd).sum := by
  simp [bitsOf, List.length_flatMap]

/-- Shifting brings a bit of a word to its end. -/
theorem shiftRight_and_one_eq_one (value : UInt64) {shift : Nat} (h : shift < 64) :
    (value >>> UInt64.ofNat shift &&& 1 == 1) = value.toNat.testBit shift := by
  have hshift : (UInt64.ofNat shift).toNat % 64 = shift := by
    rw [UInt64.toNat_ofNat']
    omega
  have hword : (value >>> UInt64.ofNat shift &&& 1).toNat = value.toNat >>> shift % 2 := by
    rw [UInt64.toNat_and, UInt64.toNat_shiftRight, hshift]
    exact Nat.and_one_is_mod _
  rw [Bool.eq_iff_iff, beq_iff_eq, ← UInt64.toNat_inj, hword, Nat.testBit_eq_decide_div_mod_eq,
    decide_eq_true_iff, Nat.shiftRight_eq_div_pow]
  rfl

/-- **A word is written as its low bits.**  The writer takes them from the word by shifting, from
the most significant one down; here they are the bits of a bit string from left to right. -/
theorem write_eq_foldl (w : BitWriter) (value : UInt64) {count : Nat} (h : count ≤ 64) :
    w.write value count = (ofNat count value.toNat).foldl push w := by
  induction count generalizing w with
  | zero => rfl
  | succ count ih =>
      rw [write, ofNat_succ, List.foldl_cons, shiftRight_and_one_eq_one value (by omega),
        ih _ (by omega)]

/-- Words are written as the bits of all of them. -/
theorem writeAll_eq_foldl (w : BitWriter) {writes : List (UInt64 × Nat)}
    (h : ∀ write ∈ writes, write.2 ≤ 64) : w.writeAll writes = (bitsOf writes).foldl push w := by
  induction writes generalizing w with
  | nil => rfl
  | cons write writes ih =>
      obtain ⟨hwrite, hwrites⟩ := List.forall_mem_cons.1 h
      rw [writeAll, List.foldl_cons, ← writeAll, ih _ hwrites, write_eq_foldl _ _ hwrite,
        bitsOf_cons, List.foldl_append]

/-- A sequence of words shows the bits of all of them. -/
theorem shows_writeAll {writes : List (UInt64 × Nat)} (h : ∀ write ∈ writes, write.2 ≤ 64) :
    (empty.writeAll writes).Shows (bitsOf writes) := by
  rw [writeAll_eq_foldl _ h]
  exact shows_empty.foldl_push (bitsOf writes)

/-- The octets are as few as can hold the bits. -/
theorem Shows.length_toBytes {w : BitWriter} {bits : Bits} (h : w.Shows bits) :
    w.toBytes.length = w.bitLength ⌈/⌉ 8 := by
  obtain ⟨pad, hpad, hoctets⟩ := h.octets_eq
  have hlength := congrArg List.length hoctets
  rw [length_ofBytes, List.length_append, List.length_replicate, ← h.bitLength_eq] at hlength
  rw [Nat.ceilDiv_eq_add_pred_div, BitWriter.toBytes]
  omega

end BitWriter

/-- An octet that ends a bit string with zeros is a multiple of the power of two of their number.
This is what padding with zeros means for the last octet as a number. -/
theorem Bits.toNat_mod_of_getLast? {bytes : List UInt8} {last : UInt8}
    (hlast : last ∈ bytes.getLast?) {bits : Bits} {pad : Nat} (hpad : pad < 8)
    (h : ofBytes bytes = bits ++ List.replicate pad false) : last.toNat % 2 ^ pad = 0 := by
  obtain ⟨init, rfl⟩ : ∃ init, bytes = init ++ [last] := by
    obtain ⟨init, hinit⟩ := List.getLast?_eq_some_iff.1 hlast
    exact ⟨init, hinit⟩
  rw [ofBytes_append, ofBytes_cons, ofBytes_nil, List.append_nil] at h
  obtain ⟨front, hfront⟩ : ∃ front, ofNat 8 last.toNat = front ++ List.replicate pad false := by
    refine ⟨(ofNat 8 last.toNat).take (8 - pad), ?_⟩
    have hdrop := congrArg (List.drop ((ofBytes init).length + (8 - pad))) h
    have hlength := congrArg List.length h
    rw [List.length_append, length_ofNat, List.length_append, List.length_replicate] at hlength
    rw [List.drop_append, List.drop_of_length_le (by omega), List.nil_append,
      Nat.add_sub_cancel_left, List.drop_left' (by omega)] at hdrop
    rw [← hdrop, List.take_append_drop]
  have hvalue := congrArg toNat hfront
  rw [toNat_ofNat, Nat.mod_eq_of_lt last.toNat_lt, toNat_append, List.length_replicate,
    ← ofNat_zero_right, toNat_ofNat, Nat.zero_mod, Nat.add_zero] at hvalue
  rw [hvalue, Nat.mul_mod_left]

/-! ### Reading words -/

/-- The bit of octets at a position. -/
theorem Bits.getElem_ofBytes {bytes : List UInt8} {i : Nat} (h : i < (ofBytes bytes).length) :
    (ofBytes bytes)[i] = (bytes.getD (i / 8) 0).toNat.testBit (7 - i % 8) := by
  induction bytes generalizing i with
  | nil => simp at h
  | cons byte bytes ih =>
      simp only [ofBytes_cons]
      by_cases hi : i < 8
      · rw [List.getElem_append_left (by rwa [length_ofNat]), getElem_ofNat,
          Nat.div_eq_of_lt hi, Nat.mod_eq_of_lt hi, List.getD_cons_zero]
      · obtain ⟨k, rfl⟩ : ∃ k, i = k + 8 := ⟨i - 8, by omega⟩
        rw [List.getElem_append_right (by rw [length_ofNat]; omega)]
        simp only [length_ofNat, Nat.add_sub_cancel]
        rw [ih, Nat.add_div_right k (by decide), Nat.add_mod_right, List.getD_cons_succ]

namespace BitCursor

open Bits

/-- The bits from the position on.  All that a cursor does is said in terms of these. -/
def unread (c : BitCursor) : Bits :=
  (Bits.ofBytes c.bytes).drop c.position

/-- The reader of the bits from the position on.  Readers of data work on bit strings, and this is
how a cursor becomes one. -/
def view (c : BitCursor) : BitReader :=
  ⟨c.position, c.unread⟩

theorem length_unread (c : BitCursor) : c.unread.length = c.remaining := by
  rw [unread, List.length_drop, length_ofBytes, remaining]

theorem unread_advance (c : BitCursor) (count : Nat) :
    (c.advance count).unread = c.unread.drop count := by
  rw [unread, unread, List.drop_drop]
  rfl

theorem advance_advance (c : BitCursor) (k m : Nat) :
    (c.advance k).advance m = c.advance (k + m) := by
  rw [advance, advance, advance, Nat.add_assoc]

theorem remaining_advance (c : BitCursor) (count : Nat) :
    (c.advance count).remaining = c.remaining - count :=
  (Nat.sub_sub _ _ _).symm

/-- The bit at the position is the first unread one. -/
theorem unread_eq_cons {c : BitCursor} (h : 0 < c.remaining) :
    ∃ b : Bool, c.bit.toNat = b.toNat ∧ c.unread = b :: (c.advance 1).unread := by
  have hlt : c.position < (Bits.ofBytes c.bytes).length := by
    rw [length_ofBytes]
    rw [remaining] at h
    omega
  refine ⟨(Bits.ofBytes c.bytes)[c.position], ?_, ?_⟩
  · have hshift : (UInt8.ofNat (7 - c.position % 8)).toNat % 8 = 7 - c.position % 8 := by
      rw [UInt8.toNat_ofNat']
      omega
    rw [getElem_ofBytes hlt, Nat.toNat_testBit, bit, UInt8.toNat_and, UInt8.toNat_shiftRight,
      hshift, Nat.shiftRight_eq_div_pow]
    exact Nat.and_one_is_mod _
  · rw [unread_advance, unread, List.drop_drop, List.drop_eq_getElem_cons hlt]

/-- A bit is shifted into a word. -/
theorem shiftLeft_one_or (value : UInt64) {bit : UInt8} {b : Bool} (h : bit.toNat = b.toNat) :
    value <<< 1 ||| bit.toUInt64 = UInt64.ofNat (2 * value.toNat + b.toNat) := by
  have hb : b.toNat < 2 := b.toNat_lt
  have hor : value.toNat <<< 1 ||| b.toNat = 2 * value.toNat + b.toNat := by
    rw [Nat.shiftLeft_eq, pow_one, Nat.mul_comm, ← pow_one 2, Nat.two_pow_add_eq_or_of_lt hb]
  rw [← UInt64.toNat_inj, UInt64.toNat_or, UInt64.toNat_shiftLeft, UInt8.toNat_toUInt64, h,
    UInt64.toNat_ofNat', ← hor, Nat.or_mod_two_pow, Nat.mod_eq_of_lt (hb.trans (by norm_num))]
  rfl

/-- **The bits that are shifted in** are the first unread ones.  The word grows at its low end, so
the bits come out in the order in which they stand. -/
theorem shiftIn_eq {c : BitCursor} {count : Nat} (h : count ≤ c.remaining) (value : UInt64) :
    c.shiftIn value count =
      UInt64.ofNat (value.toNat * 2 ^ count + toNat (c.unread.take count)) := by
  -- One bit a step: it is doubled in at the end of the word, and the position moves on by one.
  induction count generalizing c value with
  | zero => simp [shiftIn]
  | succ count ih =>
      obtain ⟨b, hbit, hunread⟩ := unread_eq_cons (c := c) (by omega)
      have hrest : count ≤ (c.advance 1).remaining := by
        rw [remaining_advance]
        omega
      have hlength : ((c.advance 1).unread.take count).length = count := by
        rw [List.length_take, length_unread, Nat.min_eq_left hrest]
      rw [shiftIn, ih hrest, shiftLeft_one_or value hbit, hunread, List.take_succ_cons, toNat_cons,
        hlength, ← UInt64.toNat_inj, UInt64.toNat_ofNat', UInt64.toNat_ofNat', UInt64.toNat_ofNat',
        Nat.add_mod, Nat.mod_mul_mod, ← Nat.add_mod]
      congr 1
      ring

/-- **The word that is read** is the number that the first unread bits write, and the cursor is
moved past them. -/
theorem run_read_of_le {c : BitCursor} {n : Nat} (h : n ≤ c.remaining) :
    (read n).run c = (.ok (UInt64.ofNat (toNat (c.unread.take n))), c.advance n) := by
  show read n c = _
  rw [read, if_neg (Nat.not_lt.2 h), shiftIn_eq h, UInt64.toNat_zero, Nat.zero_mul, Nat.zero_add]

/-- Too few bits are not read. -/
theorem run_read_of_lt {c : BitCursor} {n : Nat} (h : c.remaining < n) :
    (read n).run c = (.error (.corruptToken "" (.endOfData n c.position)), c) :=
  if_pos h

/-- **A read fails when too few bits are left**, and only then. -/
theorem exists_error_iff {c : BitCursor} {n : Nat} :
    (∃ e, ((read n).run c).1 = .error e) ↔ c.remaining < n := by
  by_cases h : n ≤ c.remaining
  · rw [run_read_of_le h]
    exact iff_of_false nofun (Nat.not_lt.2 h)
  · rw [run_read_of_lt (by omega)]
    exact iff_of_true ⟨_, rfl⟩ (by omega)

/-- A read moves the cursor behind the bits that it has read, if any. -/
theorem run_read_snd (c : BitCursor) (n : Nat) :
    ((read n).run c).2 = if c.remaining < n then c else c.advance n := by
  split
  · next h => rw [run_read_of_lt h]
  · next h => rw [run_read_of_le (Nat.not_lt.1 h)]

/-- A cursor reads what the reader of its unread bits reads. -/
theorem readWord_view (c : BitCursor) (n : Nat) :
    c.view.readWord n =
      ((read n).run c).1.map fun word => (word, ((read n).run c).2.view) := by
  rw [BitReader.readWord, BitReader.read]
  by_cases h : n ≤ c.remaining
  · have hsplit : splitAt? n c.view.rest = some (c.unread.take n, c.unread.drop n) :=
      splitAt?_eq_some_iff.2 ⟨(List.take_append_drop n _).symm, by
        rw [List.length_take, length_unread, Nat.min_eq_left h]⟩
    rw [hsplit, run_read_of_le h, ← unread_advance]
    rfl
  · have hsplit : splitAt? n c.view.rest = none := by
      rw [Option.eq_none_iff_forall_ne_some]
      rintro ⟨taken, rest⟩ hsome
      obtain ⟨hrest, hlength⟩ := splitAt?_eq_some_iff.1 hsome
      have hall : c.unread.length = taken.length + rest.length := by
        rw [← List.length_append]
        exact congrArg List.length hrest
      rw [length_unread] at hall
      omega
    rw [hsplit, run_read_of_lt (by omega)]
    rfl

/-- **A read of `k + m` bits** is a read of `k` bits followed by one of `m`.  The number of the
whole is that of the first, moved up by `m` places, and that of the second. -/
theorem exists_run_read_add {c : BitCursor} {k m : Nat} (hword : k + m ≤ 64)
    (h : k + m ≤ c.remaining) :
    ∃ a b word : UInt64, (read k).run c = (.ok a, c.advance k) ∧
      (read m).run (c.advance k) = (.ok b, c.advance (k + m)) ∧
      (read (k + m)).run c = (.ok word, c.advance (k + m)) ∧
      a.toNat * 2 ^ m + b.toNat = word.toNat := by
  have hm : m ≤ (c.advance k).remaining := by
    rw [remaining_advance]
    omega
  have hlength : ((c.advance k).unread.take m).length = m := by
    rw [List.length_take, length_unread, Nat.min_eq_left hm]
  have hfits : ∀ bits : Bits, bits.length ≤ k + m → toNat bits % 2 ^ 64 = toNat bits :=
    fun bits hbits => Nat.mod_eq_of_lt ((toNat_lt bits).trans_le
      (Nat.pow_le_pow_right Nat.two_pos (hbits.trans hword)))
  have hsecond := run_read_of_le hm
  rw [advance_advance] at hsecond
  refine ⟨_, _, _, run_read_of_le (by omega), hsecond, run_read_of_le h, ?_⟩
  rw [UInt64.toNat_ofNat', UInt64.toNat_ofNat', UInt64.toNat_ofNat',
    hfits _ ((List.length_take_le _ _).trans (Nat.le_add_right k m)),
    hfits _ ((List.length_take_le _ _).trans (Nat.le_add_left m k)),
    hfits _ (List.length_take_le _ _), List.take_add, toNat_append, ← unread_advance, hlength]

/-! ### Sequences of reads -/

/-- A sequence of reads is its first read and the others from where that one leaves the cursor.  A
read that fails leaves it where it was, so the others are run all the same. -/
theorem run_reads_cons (n : Nat) (widths : List Nat) (c : BitCursor) :
    (reads (n :: widths)).run c =
      (((read n).run c).1 :: ((reads widths).run ((read n).run c).2).1,
        ((reads widths).run ((read n).run c).2).2) := by
  rw [reads, List.mapM_cons]
  rfl

/-- **Words are read back** from the bits of words in their widths, whatever stands behind them, and
the cursor is left where they end. -/
theorem run_reads_of_unread {c : BitCursor} {writes : List (UInt64 × Nat)} {rest : Bits}
    (h : c.unread = BitWriter.bitsOf writes ++ rest) :
    ((reads (writes.map Prod.snd)).run c).1 =
        writes.map (fun write => .ok (UInt64.ofNat (write.1.toNat % 2 ^ write.2))) ∧
      ((reads (writes.map Prod.snd)).run c).2.unread = rest := by
  induction writes generalizing c with
  | nil => exact ⟨rfl, h⟩
  | cons write writes ih =>
      rw [BitWriter.bitsOf_cons, List.append_assoc] at h
      have hlength : (ofNat write.2 write.1.toNat).length = write.2 := length_ofNat _ _
      have hle : write.2 ≤ c.remaining := by
        rw [← length_unread, h, List.length_append, hlength]
        exact Nat.le_add_right _ _
      obtain ⟨hwords, hrest⟩ := ih (c := c.advance write.2) (by
        rw [unread_advance, h, List.drop_left' hlength])
      rw [List.map_cons, run_reads_cons, run_read_of_le hle, h, List.take_left' hlength,
        toNat_ofNat]
      exact ⟨congrArg _ hwords, hrest⟩

end BitCursor

/-- **Words go through octets.**  Words that are written in widths of up to 64 bits take as many
bits as their widths say, in the least number of octets, with zeros in what is left of the last one.
Reading the same widths returns each word modulo the power of two of its width and leaves fewer than
eight bits.

Wherever some reads have left a cursor, the next one fails if and only if it asks for more bits than
are left, and then the cursor stays; otherwise the cursor moves on by the bits that are read.  A
read of `k + m` bits is one of `k` bits and one of `m`, put together. -/
theorem reads_writeAll_and_read_eq_error_iff :
    (∀ writes : List (UInt64 × Nat), (∀ write ∈ writes, write.2 ≤ 64) →
      let w := BitWriter.empty.writeAll writes
      let run := (BitCursor.reads (writes.map Prod.snd)).run (.ofBytes w.toBytes)
      w.toBytes = Bits.toBytes (BitWriter.bitsOf writes) ∧
        w.bitLength = (writes.map Prod.snd).sum ∧ w.toBytes.length = w.bitLength ⌈/⌉ 8 ∧
        (∀ last ∈ w.toBytes.getLast?,
          last.toNat % 2 ^ (8 * w.toBytes.length - w.bitLength) = 0) ∧
        run.1 = writes.map (fun write => .ok (UInt64.ofNat (write.1.toNat % 2 ^ write.2))) ∧
        run.2.remaining < 8) ∧
    (∀ (bytes : List UInt8) (widths : List Nat),
      let c := ((BitCursor.reads widths).run (.ofBytes bytes)).2
      (∀ n, ((∃ e, ((BitCursor.read n).run c).1 = .error e) ↔ c.remaining < n) ∧
        ((BitCursor.read n).run c).2 = (if c.remaining < n then c else c.advance n) ∧
        c.view.readWord n = ((BitCursor.read n).run c).1.map
          fun word => (word, ((BitCursor.read n).run c).2.view)) ∧
      ∀ k m, k + m ≤ 64 → k + m ≤ c.remaining →
        ∃ a b word : UInt64, (BitCursor.read k).run c = (.ok a, c.advance k) ∧
          (BitCursor.read m).run (c.advance k) = (.ok b, c.advance (k + m)) ∧
          (BitCursor.read (k + m)).run c = (.ok word, c.advance (k + m)) ∧
          a.toNat * 2 ^ m + b.toNat = word.toNat) := by
  refine ⟨fun writes hwrites => ?_, fun bytes widths => ?_⟩
  · dsimp only
    -- Writing leaves octets that show the bits of the words, and the cursor starts at these bits.
    have hshows := BitWriter.shows_writeAll hwrites
    have hlength := hshows.length_toBytes
    obtain ⟨pad, hpad, hoctets⟩ := hshows.octets_eq
    obtain ⟨hwords, hrest⟩ := BitCursor.run_reads_of_unread
      (c := .ofBytes (BitWriter.empty.writeAll writes).toBytes) hoctets
    have hsum := congrArg List.length hoctets
    rw [Bits.length_ofBytes, List.length_append, List.length_replicate,
      ← hshows.bitLength_eq] at hsum
    refine ⟨?_, ?_, hlength, fun last hlast => ?_, hwords, ?_⟩
    · rw [BitWriter.writeAll_eq_foldl _ hwrites]
      rfl
    · rw [hshows.bitLength_eq, BitWriter.length_bitsOf]
    · have hpad' : 8 * (BitWriter.empty.writeAll writes).toBytes.length -
          (BitWriter.empty.writeAll writes).bitLength = pad := by
        rw [BitWriter.toBytes]
        omega
      rw [hpad']
      exact Bits.toNat_mod_of_getLast? hlast hpad hoctets
    · rw [← BitCursor.length_unread, hrest, List.length_replicate]
      exact hpad
  · dsimp only
    exact ⟨fun n => ⟨BitCursor.exists_error_iff, BitCursor.run_read_snd _ n,
      BitCursor.readWord_view _ n⟩, fun k m => BitCursor.exists_run_read_add⟩

/-- Three words, the last two of them across octets. -/
def threeWords : List (UInt64 × Nat) :=
  [(0b101, 3), (0xABCD, 16), (0xFFFFFFFFFFFFFFFF, 64)]

/-- Words of 3, 16 and 64 bits fill ten octets and three bits of another; and a read of 13 bits is
one of 4 and one of 9, from within an octet. -/
theorem reads_writeAll_and_read_eq_error_iff_threeWords :
    (∀ write ∈ threeWords, write.2 ≤ 64) ∧
      (BitWriter.empty.writeAll threeWords).bitLength = 83 ∧
      (BitWriter.empty.writeAll threeWords).toBytes.length = 11 ∧
      (BitWriter.empty.writeAll threeWords).toBytes.getLast? = some 0xE0 ∧
      (0xE0 : UInt8).toNat % 2 ^ 5 = 0 ∧
      ((BitCursor.reads [3, 16, 64]).run
          (.ofBytes (BitWriter.empty.writeAll threeWords).toBytes)).1 =
        [.ok 0b101, .ok 0xABCD, .ok 0xFFFFFFFFFFFFFFFF] ∧
      ∃ a b word : UInt64, (BitCursor.read 4).run ⟨[0xAB, 0xCD], 3⟩ = (.ok a, ⟨[0xAB, 0xCD], 7⟩) ∧
        (BitCursor.read 9).run ⟨[0xAB, 0xCD], 7⟩ = (.ok b, ⟨[0xAB, 0xCD], 16⟩) ∧
        (BitCursor.read 13).run ⟨[0xAB, 0xCD], 3⟩ = (.ok word, ⟨[0xAB, 0xCD], 16⟩) ∧
        a.toNat * 2 ^ 9 + b.toNat = word.toNat := by
  have hwidths : ∀ write ∈ threeWords, write.2 ≤ 64 := by decide
  have hlast : (BitWriter.empty.writeAll threeWords).toBytes.getLast? = some 0xE0 := by decide
  obtain ⟨-, hlength, hbytes, hpad, hwords, -⟩ :=
    reads_writeAll_and_read_eq_error_iff.1 threeWords hwidths
  have hzero := hpad 0xE0 hlast
  rw [hbytes, hlength] at hzero
  have hadd :=
    (reads_writeAll_and_read_eq_error_iff.2 [0xAB, 0xCD] [3]).2 4 9 (by decide) (by decide)
  exact ⟨hwidths, hlength, hbytes.trans (by rw [hlength]; rfl), hlast, hzero, hwords, hadd⟩

end FieldGrammar
