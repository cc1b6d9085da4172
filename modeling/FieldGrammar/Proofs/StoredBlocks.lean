import Mathlib
import FieldGrammar.Deflate
import FieldGrammar.Proofs.Reading

/-!
# Stored blocks are inflated to their octets

The bits of a stream of stored blocks are those of whole octets but for the three bits in front of
each block, after which the reader skips to the next octet.  So at the beginning of each block the
unread bits are those of the remaining octets.

## Main statements

* `Deflate.readBlocks_storedBlock` — one block
* `inflate_deflateStored` — a stream of stored blocks
-/

namespace FieldGrammar

namespace Deflate

namespace Source

variable {offset : Nat} {rest : Bits} {ending : InflateFault}

@[simp] theorem length_octetBits (byte : UInt8) : (octetBits byte).length = 8 := by
  simp [octetBits]

/-- A number is read from the octets that write it, least significant first. -/
theorem number_append (bits : Bits) :
    (⟨offset, bits ++ rest, ending⟩ : Source).number bits.length =
      .ok (Bits.toNat bits.reverse, ⟨offset + bits.length, rest, ending⟩) := by
  rw [number, Bits.splitAt?_append]

/-- The bits of an octet in a stream are its bits from the last to the first, so reversing them
gives its number. -/
theorem toNat_reverse_octetBits (byte : UInt8) :
    Bits.toNat (octetBits byte).reverse = byte.toNat := by
  rw [octetBits, List.reverse_reverse, Bits.toNat_ofNat]
  exact Nat.mod_eq_of_lt byte.toNat_lt

/-- Eight bits are read as the octet that they are of. -/
theorem number_octetBits (byte : UInt8) :
    (⟨offset, octetBits byte ++ rest, ending⟩ : Source).number 8 =
      .ok (byte.toNat, ⟨offset + 8, rest, ending⟩) := by
  have h := @number_append offset rest ending (octetBits byte)
  rwa [length_octetBits, toNat_reverse_octetBits] at h

/-- Sixteen bits are read as the number that the two octets write, the less significant one first.
-/
theorem number_twoOctets {n : Nat} (hn : n < 65536) :
    (⟨offset, (twoOctets n).flatMap octetBits ++ rest, ending⟩ : Source).number 16 =
      .ok (n, ⟨offset + 16, rest, ending⟩) := by
  have hbits : (twoOctets n).flatMap octetBits =
      octetBits (UInt8.ofNat (n % 256)) ++ octetBits (UInt8.ofNat (n / 256)) := by
    rw [twoOctets, List.flatMap_cons, List.flatMap_singleton]
  have hvalue : Bits.toNat ((twoOctets n).flatMap octetBits).reverse = n := by
    rw [hbits, List.reverse_append, Bits.toNat_append, List.length_reverse, length_octetBits,
      toNat_reverse_octetBits, toNat_reverse_octetBits, UInt8.toNat_ofNat', UInt8.toNat_ofNat']
    omega
  have h := @number_append offset rest ending ((twoOctets n).flatMap octetBits)
  rw [hvalue, hbits, List.length_append, length_octetBits, length_octetBits] at h
  rw [hbits]
  exact h

end Source

theorem makeRoom_of_le {limit count : Nat} {out : Output} (h : out.size + count ≤ limit)
    (s : Source) : makeRoom limit count s out = .ok s := by
  rw [makeRoom, if_pos h]

variable {limit offset : Nat} {rest : Bits} {ending : InflateFault} {out : Output}
  {bytes : List UInt8}

/-- The octets of a block are copied when they fit the limit. -/
theorem copyStored_octets (h : out.size + bytes.length ≤ limit) :
    copyStored limit bytes.length ⟨offset, bytes.flatMap Source.octetBits ++ rest, ending⟩ out =
      .ok (⟨offset + 8 * bytes.length, rest, ending⟩, out ++ bytes) := by
  -- One octet a step: the source moves on by eight bits and the output grows by the octet.
  induction bytes generalizing offset out with
  | nil => simp [copyStored]
  | cons byte bytes ih =>
      rw [List.length_cons] at h
      rw [List.length_cons, List.flatMap_cons, List.append_assoc, copyStored,
        makeRoom_of_le (by omega)]
      dsimp only
      rw [Source.number_octetBits]
      dsimp only
      rw [UInt8.ofNat_toNat, ih (by rw [Array.size_push]; omega)]
      simp [Nat.mul_add, Nat.add_assoc, Nat.add_comm 8]

/-- The bits of the first octet of a block: only the first one can be set. -/
theorem octetBits_header (last : Bool) :
    Source.octetBits (if last then 1 else 0) = last :: List.replicate 7 false := by
  cases last <;> decide

/-- A stored block that starts at an octet is copied. -/
theorem readStored_octets (hoffset : offset % 8 = 0) (hbytes : bytes.length ≤ maxStored)
    (h : out.size + bytes.length ≤ limit) :
    readStored limit ⟨offset + 3, List.replicate 5 false ++
        ((twoOctets bytes.length ++ twoOctets (maxStored - bytes.length) ++ bytes).flatMap
          Source.octetBits ++ rest), ending⟩ out =
      .ok (⟨offset + 8 * (bytes.length + 5), rest, ending⟩, out ++ bytes) := by
  -- Of the first octet the reader has taken three bits, and it skips the others.
  have hgap : (8 - (offset + 3) % 8) % 8 = 5 := by omega
  have hmax : maxStored = 65535 := rfl
  rw [readStored, Source.align]
  dsimp only
  rw [hgap, List.drop_left' List.length_replicate, List.flatMap_append, List.flatMap_append,
    List.append_assoc, List.append_assoc, Source.number_twoOctets (by omega), ok_bind]
  dsimp only
  rw [Source.number_twoOctets (by omega), ok_bind]
  dsimp only
  rw [if_neg (by omega), copyStored_octets h]
  congr 3
  omega

/-- A stored block at the beginning of an octet adds its octets to the output, and the next one
begins at an octet again. -/
theorem readBlocks_storedBlock (last : Bool) (symbolFuel fuel : Nat) (hoffset : offset % 8 = 0)
    (hbytes : bytes.length ≤ maxStored) (h : out.size + bytes.length ≤ limit) :
    readBlocks limit symbolFuel (fuel + 1)
        ⟨offset, (storedBlock last bytes).flatMap Source.octetBits ++ rest, ending⟩ out =
      if last then .ok (out ++ bytes)
      else readBlocks limit symbolFuel fuel
        ⟨offset + 8 * (bytes.length + 5), rest, ending⟩ (out ++ bytes) := by
  -- The bit that marks the last block is read first; behind it two zero bits are the type.
  have htype : (⟨offset + 1, List.replicate 7 false ++
      ((twoOctets bytes.length ++ twoOctets (maxStored - bytes.length) ++ bytes).flatMap
        Source.octetBits ++ rest), ending⟩ : Source).number 2 =
      .ok (0, ⟨offset + 3, List.replicate 5 false ++
        ((twoOctets bytes.length ++ twoOctets (maxStored - bytes.length) ++ bytes).flatMap
          Source.octetBits ++ rest), ending⟩) :=
    Source.number_append [false, false]
  rw [readBlocks, storedBlock, List.flatMap_cons, octetBits_header, List.append_assoc,
    List.cons_append, Source.bit, ok_bind]
  dsimp only
  rw [htype, ok_bind]
  dsimp only
  rw [readBlock, readStored_octets hoffset hbytes h]
  rfl

/-- **A stream of stored blocks** adds all its octets to the output: some full blocks, and a last
one of what remains.  Each block takes one unit of the fuel. -/
theorem readBlocks_storedBlocks (full symbolFuel fuel : Nat) (hoffset : offset % 8 = 0)
    (hbytes : bytes.length ≤ (full + 1) * maxStored) (hfuel : full < fuel)
    (h : out.size + bytes.length ≤ limit) :
    readBlocks limit symbolFuel fuel
        ⟨offset, (storedBlocks full bytes).flatMap Source.octetBits, ending⟩ out =
      .ok (out ++ bytes) := by
  -- The induction is on the number of full blocks before the last one.
  induction full generalizing offset out bytes fuel with
  | zero =>
      obtain ⟨fuel, rfl⟩ := Nat.exists_eq_succ_of_ne_zero (Nat.ne_of_gt hfuel)
      have hblock : readBlocks limit symbolFuel (fuel + 1)
          ⟨offset, (storedBlock true bytes).flatMap Source.octetBits ++ [], ending⟩ out =
            .ok (out ++ bytes) := readBlocks_storedBlock true symbolFuel fuel hoffset (by omega) h
      rw [List.append_nil] at hblock
      exact hblock
  | succ full ih =>
      obtain ⟨fuel, rfl⟩ := Nat.exists_eq_succ_of_ne_zero (Nat.ne_of_gt (Nat.zero_lt_of_lt hfuel))
      have htake : (bytes.take maxStored).length ≤ maxStored := List.length_take_le _ _
      have hsplit :
          (bytes.take maxStored).length + (bytes.drop maxStored).length = bytes.length := by
        rw [← List.length_append, List.take_append_drop]
      have hdrop : (bytes.drop maxStored).length ≤ (full + 1) * maxStored := by
        rw [List.length_drop]
        rw [Nat.succ_mul] at hbytes
        omega
      have hsize : (out ++ bytes.take maxStored).size + (bytes.drop maxStored).length ≤ limit := by
        rw [← Array.length_toList, Array.toList_appendList, List.length_append, Array.length_toList]
        omega
      rw [storedBlocks, List.flatMap_append, readBlocks_storedBlock false symbolFuel fuel hoffset
        htake (by omega), if_neg (by decide), ih fuel (by omega) hdrop (by omega) hsize]
      refine congrArg Except.ok (Array.ext' ?_)
      simp

/-- A stream of stored blocks has an octet for each block at least.  Inflating is given fuel by the
length of the stream, so there is enough for all blocks. -/
theorem lt_length_storedBlocks (full : Nat) (bytes : List UInt8) :
    full < (storedBlocks full bytes).length := by
  induction full generalizing bytes with
  | zero => simp [storedBlocks, storedBlock]
  | succ full ih =>
      rw [storedBlocks, List.length_append]
      have hrest := ih (bytes.drop maxStored)
      have hblock : 1 ≤ (storedBlock false (bytes.take maxStored)).length := by
        simp [storedBlock]
      omega

end Deflate

/-- **Octets in stored blocks are inflated to themselves.**  The limit is their own number, and any
greater one gives the same. -/
theorem inflate_deflateStored (bytes : List UInt8) :
    inflate bytes.length (deflateStored bytes) = .ok bytes := by
  have hmax : Deflate.maxStored = 65535 := rfl
  have hbytes :
      bytes.length ≤ ((bytes.length - 1) / Deflate.maxStored + 1) * Deflate.maxStored := by
    rw [hmax]
    omega
  have hfuel : (bytes.length - 1) / Deflate.maxStored < 8 * (deflateStored bytes).length := by
    have hlt := Deflate.lt_length_storedBlocks ((bytes.length - 1) / Deflate.maxStored) bytes
    rw [deflateStored]
    omega
  have hblocks : Deflate.readBlocks bytes.length (8 * (deflateStored bytes).length)
      (8 * (deflateStored bytes).length) (Deflate.Source.ofBytes (deflateStored bytes)) #[] =
        .ok (#[] ++ bytes) :=
    Deflate.readBlocks_storedBlocks _ _ _ rfl hbytes hfuel (by simp)
  rw [inflate, hblocks, ok_bind]
  simp

end FieldGrammar
