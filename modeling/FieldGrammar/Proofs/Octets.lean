import Mathlib
import FieldGrammar.Bits.Basic

/-!
# Bit strings as numbers and as octets

A bit string writes a number in base two, so its length bounds the number and joining two bit
strings shifts the first by the length of the second.  Writing a number in a declared width and
reading it back keeps it modulo the range of the width; nothing is lost when the width is that of
a bound on the number.

A bit string leaves the library as octets, which a writer fills bit by bit.  At any time the octets
show the bits that were written and fewer than eight zeros behind them, and this says what they
are: octets with fewer than eight bits behind them are found again from the bits alone.

Numbers are taken apart and put together by shifting.  The low bits of a number are a bit string,
and shifting moves its end, so that a word that bits are fed into is understood by the bits that it
holds and not by its value.

## Main statements

* `Bits.toNat_append` — joining shifts and adds
* `Bits.toNat_lt` — a bit string is less than the power of two of its length
* `Bits.toNat_ofNat`, `Bits.toNat_ofNat_of_le` — what a number is after being written and read
* `Bits.ofNat_add`, `Bits.low_push`, `Bits.low_take` — numbers and words, shifted
* `Bits.octets_unique` — octets in front of fewer than eight bits
* `BitWriter.Shows.push` — a writer, bit by bit
* `Bits.ofBytes_toBytes` — writing octets adds fewer than eight zero bits
-/

namespace FieldGrammar

/-! ## The value of a bit string -/

namespace Bits

/-- The number of a bit string, accumulated from the left: what was there before moves up by the
length of the string. -/
private theorem foldl_toNat (bits : Bits) (n : Nat) :
    bits.foldl (fun n b => 2 * n + b.toNat) n = n * 2 ^ bits.length + toNat bits := by
  induction bits generalizing n with
  | nil => simp
  | cons b bits ih =>
    simp only [toNat, List.foldl_cons, List.length_cons]
    rw [ih, ih (2 * 0 + b.toNat), Nat.pow_succ]
    simp only [Nat.mul_zero, Nat.zero_add, Nat.add_mul, Nat.add_assoc]
    rw [Nat.mul_comm 2 n, Nat.mul_assoc, Nat.mul_comm 2]

/-- The first bit of a bit string weighs as much as the length of the rest says. -/
theorem toNat_cons (b : Bool) (bits : Bits) :
    toNat (b :: bits) = b.toNat * 2 ^ bits.length + toNat bits := by
  have h := foldl_toNat bits b.toNat
  simpa [toNat] using h

/-- Writing one bit string after another shifts the first by the length of the second. -/
theorem toNat_append (xs ys : Bits) :
    toNat (xs ++ ys) = toNat xs * 2 ^ ys.length + toNat ys := by
  have h := foldl_toNat ys (toNat xs)
  simpa [toNat, List.foldl_append] using h

/-- A bit string writes a number below the power of two of its length. -/
theorem toNat_lt (bits : Bits) : toNat bits < 2 ^ bits.length := by
  induction bits with
  | nil => simp
  | cons b bits ih =>
    rw [toNat_cons, List.length_cons, Nat.pow_succ]
    cases b <;> simp <;> omega

/-- Reading a number back gives its value modulo the range of its width. -/
theorem toNat_ofNat (w n : Nat) : toNat (ofNat w n) = n % 2 ^ w := by
  induction w with
  | zero => simp [Nat.mod_one]
  | succ w ih =>
    rw [ofNat_succ, toNat_cons, length_ofNat, ih, Nat.mod_pow_succ, Nat.toNat_testBit,
      Nat.add_comm, Nat.mul_comm]

/-- Every number fits the width of its own range. -/
theorem lt_two_pow_width (n : Nat) : n < 2 ^ width n := by
  unfold width
  split
  · next h => subst h; exact Nat.one_pos
  · exact Nat.lt_log2_self

/-- A number within a bound is read back unchanged from the width of the bound. -/
theorem toNat_ofNat_of_le {n bound : Nat} (h : n ≤ bound) :
    toNat (ofNat (width bound) n) = n := by
  rw [toNat_ofNat]
  exact Nat.mod_eq_of_lt (h.trans_lt (lt_two_pow_width bound))

end Bits

/-! ## Octets -/

namespace Bits

/-! ### Numbers of a bit string -/

/-- Bit strings of one length that write the same number are the same.  So a bit string may be found
by its length and its number. -/
theorem eq_of_toNat_eq {xs ys : Bits} (hlen : xs.length = ys.length)
    (h : toNat xs = toNat ys) : xs = ys := by
  induction xs generalizing ys with
  | nil => exact (List.length_eq_zero_iff.1 hlen.symm).symm
  | cons x xs ih =>
      cases ys with
      | nil => simp at hlen
      | cons y ys =>
          have hlen' : xs.length = ys.length := by simpa using hlen
          rw [toNat_cons, toNat_cons, hlen'] at h
          have hx := toNat_lt xs
          have hy := toNat_lt ys
          rw [hlen'] at hx
          have hxy : x = y ∧ toNat xs = toNat ys := by
            cases x <;> cases y <;>
              simp only [Bool.toNat_true, Bool.toNat_false, Nat.zero_mul, Nat.one_mul] at h <;>
              simp only [true_and, reduceCtorEq, false_and] <;> omega
          rw [hxy.1, ih hlen' hxy.2]

/-- A bit string is the number it writes, in its own width. -/
theorem ofNat_toNat (bits : Bits) : ofNat bits.length (toNat bits) = bits := by
  refine eq_of_toNat_eq (length_ofNat _ _) ?_
  rw [toNat_ofNat, Nat.mod_eq_of_lt (toNat_lt bits)]

/-- In a width, only the bits below it matter. -/
theorem ofNat_congr {w n n' : Nat} (h : ∀ i < w, n.testBit i = n'.testBit i) :
    ofNat w n = ofNat w n' := by
  induction w with
  | zero => rfl
  | succ w ih =>
      rw [ofNat_succ, ofNat_succ, h w (Nat.lt_succ_self w),
        ih fun i hi => h i (Nat.lt_succ_of_lt hi)]

theorem getElem_ofNat {w n i : Nat} (h : i < (ofNat w n).length) :
    (ofNat w n)[i] = n.testBit (w - 1 - i) := by
  induction w generalizing i with
  | zero => cases h
  | succ w ih =>
      cases i with
      | zero => simp [ofNat_succ]
      | succ i =>
          simp only [ofNat_succ, List.getElem_cons_succ, ih]
          congr 1
          omega

/-- The bits in front of the last ones are those of the shifted number. -/
theorem ofNat_add (w k n : Nat) : ofNat (w + k) n = ofNat w (n >>> k) ++ ofNat k n := by
  induction w with
  | zero => rw [Nat.zero_add, ofNat_zero, List.nil_append]
  | succ w ih =>
      rw [Nat.succ_add, ofNat_succ, ofNat_succ, ih, Nat.testBit_shiftRight, Nat.add_comm k w,
        List.cons_append]

/-- Taking a number modulo the range of a width changes nothing that is written in the width. -/
theorem ofNat_mod (w n : Nat) : ofNat w (n % 2 ^ w) = ofNat w n := by
  refine ofNat_congr fun i hi => ?_
  rw [Nat.testBit_mod_two_pow, decide_eq_true hi, Bool.true_and]

theorem ofNat_zero_right (w : Nat) : ofNat w 0 = List.replicate w false := by
  induction w with
  | zero => rfl
  | succ w ih => rw [ofNat_succ, Nat.zero_testBit, ih, List.replicate_succ]

/-! ### Words -/

/-- The low bits of a word.  A loop that feeds bits into a word and takes them out again is
described by the low bits that it has not taken out yet. -/
def low (word : UInt32) (count : Nat) : Bits :=
  ofNat count word.toNat

@[simp] theorem low_zero (word : UInt32) : low word 0 = [] := rfl

@[simp] theorem length_low (word : UInt32) (count : Nat) : (low word count).length = count :=
  length_ofNat count _

/-- Bits are fed into a word from the right, as long as there is room for them.  Shifting moves the
bits that are there, and the new ones fill the places that it has cleared. -/
theorem low_push {count w : Nat} (word : UInt32) {value : UInt32} (hvalue : value.toNat < 2 ^ w)
    (hw : w < 32) (hroom : count + w ≤ 32) :
    low (word <<< UInt32.ofNat w ||| value) (count + w) =
      low word count ++ ofNat w value.toNat := by
  have hshift : (UInt32.ofNat w).toNat % 32 = w := by
    rw [UInt32.toNat_ofNat']
    omega
  have hbit : ∀ i, (word <<< UInt32.ofNat w ||| value).toNat.testBit i =
      ((decide (i < 32) && (decide (w ≤ i) && word.toNat.testBit (i - w))) ||
        value.toNat.testBit i) := by
    intro i
    rw [UInt32.toNat_or, UInt32.toNat_shiftLeft, hshift, Nat.testBit_or,
      Nat.testBit_mod_two_pow, Nat.testBit_shiftLeft]
  rw [low, ofNat_add, low]
  congr 1
  · refine ofNat_congr fun i hi => ?_
    have hhigh : value.toNat.testBit (w + i) = false :=
      Nat.testBit_lt_two_pow (hvalue.trans_le (Nat.pow_le_pow_right Nat.two_pos (by omega)))
    rw [Nat.testBit_shiftRight, hbit, hhigh, Nat.add_sub_cancel_left,
      decide_eq_true (by omega), decide_eq_true (by omega), Bool.true_and, Bool.true_and,
      Bool.or_false]
  · refine ofNat_congr fun i hi => ?_
    rw [hbit, decide_eq_false (show ¬w ≤ i by omega), Bool.false_and, Bool.and_false,
      Bool.false_or]

/-- A mask leaves the low bits. -/
theorem ofNat_and_mask {k : Nat} (word : UInt32) {mask : UInt32} (hmask : mask.toNat = 2 ^ k - 1) :
    ofNat k (word &&& mask).toNat = low word k := by
  refine ofNat_congr fun i hi => ?_
  rw [UInt32.toNat_and, hmask, Nat.testBit_and, Nat.testBit_two_pow_sub_one, decide_eq_true hi,
    Bool.and_true]

/-- Bits are taken from a word in front of its low bits, which stay. -/
theorem low_take {count k : Nat} (word : UInt32) {mask : UInt32} (hmask : mask.toNat = 2 ^ k - 1)
    (hcount : count < 32) :
    ofNat k (word >>> UInt32.ofNat count &&& mask).toNat ++ low word count =
      low word (count + k) := by
  have hshift : (UInt32.ofNat count).toNat % 32 = count := by
    rw [UInt32.toNat_ofNat']
    omega
  rw [ofNat_and_mask _ hmask, low, UInt32.toNat_shiftRight, hshift, Nat.add_comm, low, low,
    ofNat_add]

/-! ### Octets -/

theorem ofBytes_append (bytes bytes' : List UInt8) :
    ofBytes (bytes ++ bytes') = ofBytes bytes ++ ofBytes bytes' :=
  List.flatMap_append

/-- An octet is determined by its bits. -/
theorem octet_injective {byte byte' : UInt8} (h : ofNat 8 byte.toNat = ofNat 8 byte'.toNat) :
    byte = byte' := by
  have hvalues := congrArg toNat h
  rw [toNat_ofNat, toNat_ofNat, Nat.mod_eq_of_lt byte.toNat_lt,
    Nat.mod_eq_of_lt byte'.toNat_lt] at hvalues
  exact UInt8.toNat_inj.1 hvalues

/-- The bits of octets determine them. -/
theorem ofBytes_injective : Function.Injective ofBytes := by
  intro bytes bytes' h
  have hlength := congrArg List.length h
  rw [length_ofBytes, length_ofBytes] at hlength
  induction bytes generalizing bytes' with
  | nil => exact (List.length_eq_zero_iff.1 (by simpa using hlength.symm)).symm
  | cons byte bytes ih =>
      cases bytes' with
      | nil => simp at hlength
      | cons byte' bytes' =>
          rw [ofBytes_cons, ofBytes_cons] at h
          obtain ⟨hfirst, hrest⟩ := List.append_inj h (by rw [length_ofNat, length_ofNat])
          rw [List.length_cons, List.length_cons] at hlength
          rw [octet_injective hfirst, ih hrest (by omega)]

/-- **Octets with fewer than eight bits behind them** are determined by all the bits: there are as
many octets as fit, and each is read off its place. -/
theorem octets_unique {bytes bytes' : List UInt8} {rest rest' : Bits}
    (h : ofBytes bytes ++ rest = ofBytes bytes' ++ rest') (hrest : rest.length < 8)
    (hrest' : rest'.length < 8) : bytes = bytes' ∧ rest = rest' := by
  have hlength := congrArg List.length h
  rw [List.length_append, List.length_append, length_ofBytes, length_ofBytes] at hlength
  obtain ⟨hbytes, hrests⟩ := List.append_inj h (by rw [length_ofBytes, length_ofBytes]; omega)
  exact ⟨ofBytes_injective hbytes, hrests⟩

/-- Bits cut off from octets are those of the octets in front of the cut and fewer than eight
more. -/
theorem exists_take_ofBytes (bytes : List UInt8) (n : Nat) (h : n ≤ 8 * bytes.length) :
    ∃ rest : Bits, rest.length < 8 ∧
      (ofBytes bytes).take n = ofBytes (bytes.take (n / 8)) ++ rest := by
  have hlength : (ofBytes (bytes.take (n / 8))).length = 8 * (n / 8) := by
    rw [length_ofBytes, List.length_take]
    omega
  refine ⟨(ofBytes (bytes.drop (n / 8))).take (n - 8 * (n / 8)), ?_, ?_⟩
  · rw [List.length_take]
    omega
  · conv_lhs => rw [← List.take_append_drop (n / 8) bytes, ofBytes_append, List.take_append,
      List.take_of_length_le (by omega), hlength]

end Bits

/-! ### Writers -/

namespace BitWriter

open Bits

/-- The octets show the bits written so far, with fewer than eight zeros behind.  This is the
invariant of the writer. -/
structure Shows (w : BitWriter) (bits : Bits) : Prop where
  bitLength_eq : w.bitLength = bits.length
  octets_eq : ∃ pad < 8, ofBytes w.octets.reverse = bits ++ List.replicate pad false

theorem shows_empty : Shows .empty [] :=
  ⟨rfl, 0, by decide, rfl⟩

/-- Setting the bit behind the front of an octet that ends with zeros.  The other bits stay as they
are. -/
theorem ofNat_octet_or {octet : UInt8} {front : Bits} (hlength : front.length < 8)
    (h : ofNat 8 octet.toNat = front ++ List.replicate (8 - front.length) false) :
    ofNat 8 (octet ||| 0x80 >>> UInt8.ofNat front.length).toNat =
      front ++ true :: List.replicate (7 - front.length) false := by
  have hplace : ((0x80 : UInt8) >>> UInt8.ofNat front.length).toNat = 2 ^ (7 - front.length) := by
    have hall : ∀ n < 8, ((0x80 : UInt8) >>> UInt8.ofNat n).toNat = 2 ^ (7 - n) := by
      decide +kernel
    exact hall _ hlength
  refine List.ext_getElem (by simp; omega) fun i hi _ => ?_
  have hlt : i < 8 := by rwa [length_ofNat] at hi
  have hplain : i < (front ++ List.replicate (8 - front.length) false).length := by
    rw [← h, length_ofNat]
    exact hlt
  have hold : octet.toNat.testBit (8 - 1 - i) =
      (front ++ List.replicate (8 - front.length) false)[i] := by
    rw [← getElem_ofNat (h ▸ hplain)]
    simp only [h]
  rw [getElem_ofNat hi, UInt8.toNat_or, hplace, Nat.testBit_or, Nat.testBit_two_pow, hold]
  rcases Nat.lt_trichotomy i front.length with hlt | rfl | hgt
  · rw [List.getElem_append_left hlt, List.getElem_append_left hlt,
      decide_eq_false (by omega), Bool.or_false]
  · rw [List.getElem_append_right le_rfl, decide_eq_true (by omega), Bool.or_true]
    simp
  · rw [List.getElem_append_right hgt.le, List.getElem_append_right hgt.le,
      decide_eq_false (by omega), Bool.or_false, List.getElem_replicate]
    obtain ⟨k, hk⟩ : ∃ k, i - front.length = k + 1 := ⟨i - front.length - 1, by omega⟩
    simp [hk]

/-- The octets with room for one more bit end with zeros from its place on: there is a place in the
last octet, or an octet of zeros is added. -/
theorem Shows.withRoom {w : BitWriter} {bits : Bits} (h : w.Shows bits) :
    ∃ last before front, w.withRoom = last :: before ∧ front.length = w.bitLength % 8 ∧
      ofBytes before.reverse ++ front = bits ∧
      ofNat 8 last.toNat = front ++ List.replicate (8 - front.length) false := by
  obtain ⟨hbits, pad, hpad, hoctets⟩ := h
  have hlength := congrArg List.length hoctets
  rw [length_ofBytes, List.length_append, List.length_replicate, List.length_reverse,
    ← hbits] at hlength
  by_cases hfull : w.bitLength % 8 = 0
  · obtain rfl : pad = 0 := by omega
    refine ⟨0, w.octets, [], if_pos hfull, hfull.symm, ?_, rfl⟩
    simpa using hoctets
  · rw [BitWriter.withRoom, if_neg hfull]
    cases hw : w.octets with
    | nil =>
        rw [hw, List.length_nil] at hlength
        omega
    | cons last before =>
        rw [hw, List.reverse_cons, ofBytes_append, ofBytes_cons, ofBytes_nil,
          List.append_nil] at hoctets
        rw [hw, List.length_cons] at hlength
        rcases List.append_eq_append_iff.1 hoctets with ⟨front, hfront, hlast⟩ | ⟨more, -, hmore⟩
        · have hsum := congrArg List.length hlast
          rw [length_ofNat, List.length_append, List.length_replicate] at hsum
          refine ⟨last, before, front, rfl, by omega, hfront.symm, ?_⟩
          rw [hlast, show pad = 8 - front.length by omega]
        · -- The zeros behind the bits would fill the last octet.
          have hsum := congrArg List.length hmore
          rw [List.length_append, length_ofNat, List.length_replicate] at hsum
          omega

/-- **A bit is shown behind those that were written before.**  A zero changes nothing in the octets,
and a one is set in its place. -/
theorem Shows.push {w : BitWriter} {bits : Bits} (h : w.Shows bits) (bit : Bool) :
    (w.push bit).Shows (bits ++ [bit]) := by
  obtain ⟨last, before, front, hroom, hfront, rfl, hlast⟩ := h.withRoom
  have hlt : front.length < 8 := by omega
  have hlength : w.bitLength + 1 = (ofBytes before.reverse ++ front ++ [bit]).length := by
    rw [h.bitLength_eq, List.length_append, List.length_append, List.length_append,
      List.length_singleton]
  refine ⟨hlength, 7 - front.length, by omega, ?_⟩
  rw [BitWriter.push, hroom, ← hfront, List.append_assoc, List.append_assoc]
  cases bit with
  | false =>
      have hzeros : 8 - front.length = 7 - front.length + 1 := by omega
      rw [if_neg Bool.false_ne_true, List.reverse_cons, ofBytes_append, ofBytes_cons, ofBytes_nil,
        List.append_nil, hlast, hzeros, List.replicate_succ, List.singleton_append]
  | true =>
      rw [if_pos rfl, setBit, List.reverse_cons, ofBytes_append, ofBytes_cons, ofBytes_nil,
        List.append_nil, ofNat_octet_or hlt hlast, List.singleton_append]

/-- A run of a writer shows all bits. -/
theorem Shows.foldl_push {w : BitWriter} {bits : Bits} (h : w.Shows bits) (more : Bits) :
    (more.foldl BitWriter.push w).Shows (bits ++ more) := by
  induction more generalizing w bits with
  | nil => rwa [List.append_nil]
  | cons bit more ih =>
      rw [List.foldl_cons, ← List.singleton_append, ← List.append_assoc]
      exact ih (h.push bit)

end BitWriter

/-- **Writing a bit string as octets** adds fewer than eight zero bits. -/
theorem Bits.ofBytes_toBytes (bits : Bits) :
    ∃ pad < 8, Bits.ofBytes (Bits.toBytes bits) = bits ++ List.replicate pad false :=
  (BitWriter.shows_empty.foldl_push bits).octets_eq

end FieldGrammar
