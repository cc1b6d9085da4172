import Mathlib
import FieldGrammar.Packing.Reader
import FieldGrammar.Proofs.Octets
import FieldGrammar.Proofs.Writing

/-!
# Reading back what was written

A reader is right about a bit string when it consumes exactly these bits, whatever follows them
and wherever they start, and returns what they write (`Reads`).  Stated with arbitrary bits
behind, the readers of the parts of a value compose into the reader of the value.

This module has the parts that kinds of nodes share: a number in the width of its range, the
index of an option, the length of an array, the offset of a number between bounds, and a number
of items one after the other.

## Main statements

* `Reads.repeated` — items one after the other
* `Packing.reads_option`, `Packing.reads_length`, `Packing.reads_offset` — the parts of a value
-/

namespace FieldGrammar

namespace Bits

theorem splitAt?_append (bits rest : Bits) :
    splitAt? bits.length (bits ++ rest) = some (bits, rest) := by
  induction bits with
  | nil => rfl
  | cons b bits ih =>
      rw [List.length_cons, List.cons_append, splitAt?, ih]
      rfl

/-- Splitting takes the bits apart without loss, and succeeds when there are enough of them. -/
theorem splitAt?_eq_some_iff {n : Nat} {bits taken rest : Bits} :
    splitAt? n bits = some (taken, rest) ↔ bits = taken ++ rest ∧ taken.length = n := by
  constructor
  · intro h
    induction n generalizing bits taken with
    | zero =>
        cases h
        exact ⟨rfl, rfl⟩
    | succ n ih =>
        cases bits with
        | nil => cases h
        | cons b bits =>
            rw [splitAt?, Option.map_eq_some_iff] at h
            obtain ⟨⟨taken', rest'⟩, hsplit, heq⟩ := h
            cases heq
            obtain ⟨rfl, rfl⟩ := ih hsplit
            exact ⟨rfl, rfl⟩
  · rintro ⟨rfl, rfl⟩
    exact splitAt?_append taken rest

end Bits

/-! ### Readers that are right about a bit string -/

/-- Reading consumes exactly these bits, whatever follows, and returns `a`.  Where the bits begin
does not matter either, so readings can be put one behind the other. -/
def Reads {α : Type} (read : BitReader → Except Error (α × BitReader)) (bits : Bits) (a : α) :
    Prop :=
  ∀ (offset : Nat) (rest : Bits),
    read ⟨offset, bits ++ rest⟩ = .ok (a, ⟨offset + bits.length, rest⟩)

namespace Reads

variable {α β : Type}

/-- Reading nothing. -/
theorem nil (a : α) : Reads (fun r => .ok (a, r)) [] a := by
  intro offset rest
  rfl

/-- A reader whose result is converted. -/
theorem map {read : BitReader → Except Error (α × BitReader)} {bits : Bits} {a : α}
    (hread : Reads read bits a) (f : α → β) :
    Reads (fun r => read r >>= fun found => .ok (f found.1, found.2)) bits (f a) := by
  intro offset rest
  dsimp only
  rw [hread, ok_bind]

/-- Items one after the other. -/
theorem repeated {read : BitReader → Except Error (α × BitReader)} {parts : List Bits}
    {items : List α} (h : List.Forall₂ (fun bits a => Reads read bits a) parts items) :
    Reads (BitReader.repeated read items.length) parts.flatten items := by
  induction h with
  | nil => exact nil []
  | @cons bits a parts items hfirst _ ih =>
      have hrest : Reads (fun r => BitReader.repeated read items.length r >>= fun found =>
          .ok (a :: found.1, found.2)) parts.flatten (a :: items) :=
        ih.map (a :: ·)
      intro offset rest
      rw [List.length_cons, BitReader.repeated_succ, List.flatten_cons, List.append_assoc, hfirst,
        ok_bind, List.length_append, ← Nat.add_assoc]
      exact hrest (offset + bits.length) rest

end Reads

namespace Packing

/-! ### Parts of a value -/

/-- Bits are read as the number that they write. -/
theorem read_append (bits rest : Bits) (offset : Nat) :
    BitReader.read ⟨offset, bits ++ rest⟩ bits.length =
      .ok (Bits.toNat bits, ⟨offset + bits.length, rest⟩) := by
  rw [BitReader.read, Bits.splitAt?_append]

/-- One bit is read as zero or one. -/
theorem read_bit (b : Bool) (rest : Bits) (offset : Nat) :
    BitReader.read ⟨offset, b :: rest⟩ 1 = .ok (b.toNat, ⟨offset + 1, rest⟩) := by
  cases b <;> rfl

/-- A number is read back from the width of a bound on it. -/
theorem read_bounded {n bound : Nat} (h : n ≤ bound) (rest : Bits) (offset : Nat) :
    BitReader.read ⟨offset, Bits.ofNat (Bits.width bound) n ++ rest⟩ (Bits.width bound) =
      .ok (n, ⟨offset + (Bits.ofNat (Bits.width bound) n).length, rest⟩) := by
  have hread := read_append (Bits.ofNat (Bits.width bound) n) rest offset
  rw [Bits.toNat_ofNat_of_le h, Bits.length_ofNat] at hread
  rw [hread, Bits.length_ofNat]

/-- An option is read back. -/
theorem reads_option {e : Enumeration} {value : Value} {option : String} {bits : Bits}
    (h : writeOption e value = .ok (option, bits)) : Reads (readOption e) bits option := by
  obtain ⟨-, index, hindex, rfl⟩ := writeOption_eq_ok_iff.1 h
  obtain ⟨hlt, heq, -⟩ := List.idxOf?_eq_some_iff.1 hindex
  intro offset rest
  rw [readOption, read_bounded (le_lastIndex hlt), ok_bind]
  dsimp only
  rw [List.getElem?_eq_getElem hlt, heq]
  rfl

theorem lengthSpan_of_le {minLength maxLength : UInt32} (h : minLength.toNat ≤ maxLength.toNat) :
    lengthSpan minLength maxLength = maxLength.toNat - minLength.toNat :=
  UInt32.toNat_sub_of_le _ _ (UInt32.le_iff_toNat_le.2 h)

/-- The length of an array is read back. -/
theorem reads_length {name : String} {length : Nat} {minLength maxLength : UInt32} {bits : Bits}
    (h : writeLength name length minLength maxLength = .ok bits) :
    Reads (readLength name minLength maxLength) bits length := by
  obtain ⟨⟨hmin, hmax⟩, rfl⟩ := writeLength_eq_ok_iff.1 h
  have hspan := lengthSpan_of_le (hmin.trans hmax)
  have hle : length - minLength.toNat ≤ lengthSpan minLength maxLength := by omega
  intro offset rest
  rw [readLength, read_bounded hle, ok_bind]
  dsimp only
  rw [Nat.add_sub_cancel' hmin, if_neg (by omega)]
  rfl

/-- A number between bounds is at its distance from the lower bound. -/
theorem advance_distance {low n : Int64} (h : low ≤ n) : advance low (distance low n) = n := by
  rw [advance, distance_of_le (Int64.le_iff_toInt_le.1 h)]
  rw [show low.toInt + (n.toInt - low.toInt) = n.toInt by omega, Int64.ofInt_toInt]

theorem distance_le {low n high : Int64} (hlow : low ≤ n) (hhigh : n ≤ high) :
    distance low n ≤ distance low high := by
  rw [Int64.le_iff_toInt_le] at hlow hhigh
  have h1 := distance_of_le hlow
  have h2 := distance_of_le (hlow.trans hhigh)
  omega

/-- A number between bounds is read back. -/
theorem reads_offset (name : String) {low n high : Int64} (hlow : low ≤ n) (hhigh : n ≤ high) :
    Reads (readOffset name low high)
      (Bits.ofNat (Bits.width (distance low high)) (distance low n)) n := by
  have hle := distance_le hlow hhigh
  intro offset rest
  rw [readOffset, read_bounded hle, ok_bind]
  dsimp only
  rw [if_neg (Nat.not_lt.2 hle), advance_distance hlow]
  rfl

/-! ### Variants -/

/-- Looking a variant up and reading it is reading it where it stands. -/
theorem readVariant_eq {follow : ReadPointer} (variants : Entries (List Node)) (option : String)
    (r : BitReader) :
    readVariant follow variants option r =
      readFields follow ((Entries.get? variants option).getD []) r :=
  Entries.search_getD_eq (f := (readVariant follow · option r)) rfl
    (fun _ _ _ => by rw [readVariant]) variants

end Packing

end FieldGrammar
