/-!
# Bit strings

A packed token is, before anything else, a string of bits.  This module fixes the one
representation that the rest of the library shares: a list of booleans whose head is the
*most significant* bit.  Numbers enter a bit string with a declared width (`Bits.ofNat`) and
leave it by their binary value (`Bits.toNat`).  Octets are read as the bits that they consist of.

A `BitWriter` fills octets bit by bit, each from its most significant bit on.  An octet is begun
with zeros when the one before it is full, and a bit that is set is put in its place; bits that are
not set leave the zeros as they are.  The octets are therefore padded with zeros at any time.

## Main definitions

* `Bits.width` — the least number of bits that can hold every number up to a bound
* `Bits.ofNat`, `Bits.toNat` — fixed-width numbers and their values
* `Bits.splitAt?` — the first `n` bits and the rest, when there are `n`
* `Bits.ofBytes` — the bits of octets
* `BitWriter.push`, `BitWriter.write` — append a bit, and the low bits of a word
* `Bits.toBytes` — the octets of a bit string, the last one filled up with zero bits
-/

namespace FieldGrammar

/-- A string of bits, the most significant bit first. -/
abbrev Bits := List Bool

namespace Bits

/-! ### Numbers of a declared width -/

/-- The number of bits needed to write every number in `0..=n`.  A range that holds a single
value needs none. -/
def width (n : Nat) : Nat :=
  if n = 0 then 0 else n.log2 + 1

/-- The `width` low bits of `n`, most significant first. -/
def ofNat : (width : Nat) → (n : Nat) → Bits
  | 0, _ => []
  | w + 1, n => n.testBit w :: ofNat w n

/-- The number that a bit string writes. -/
def toNat (bits : Bits) : Nat :=
  bits.foldl (fun n b => 2 * n + b.toNat) 0

@[simp] theorem width_zero : width 0 = 0 := rfl

@[simp] theorem ofNat_zero (n : Nat) : ofNat 0 n = [] := rfl

theorem ofNat_succ (w n : Nat) : ofNat (w + 1) n = n.testBit w :: ofNat w n := rfl

@[simp] theorem toNat_nil : toNat [] = 0 := rfl

@[simp] theorem length_ofNat (w n : Nat) : (ofNat w n).length = w := by
  induction w with
  | zero => rfl
  | succ w ih => simp [ofNat, ih]

/-! ### Taking a bit string apart -/

/-- The first `n` bits and the bits after them, or nothing when fewer than `n` bits are left. -/
def splitAt? : (n : Nat) → Bits → Option (Bits × Bits)
  | 0, bits => some ([], bits)
  | _ + 1, [] => none
  | n + 1, b :: bits => (splitAt? n bits).map fun (taken, rest) => (b :: taken, rest)

/-! ### Octets -/

/-- The bits of a string of octets, each octet from its most significant bit on. -/
def ofBytes (bytes : List UInt8) : Bits :=
  bytes.flatMap fun byte => ofNat 8 byte.toNat

@[simp] theorem ofBytes_nil : ofBytes [] = [] := rfl

@[simp] theorem ofBytes_cons (byte : UInt8) (bytes : List UInt8) :
    ofBytes (byte :: bytes) = ofNat 8 byte.toNat ++ ofBytes bytes := rfl

/-- An octet holds eight bits. -/
theorem length_ofBytes (bytes : List UInt8) : (ofBytes bytes).length = 8 * bytes.length := by
  induction bytes with
  | nil => rfl
  | cons byte bytes ih => simp [ih, Nat.mul_add, Nat.add_comm]

end Bits

/-! ## Writing -/

/-- Octets that are being written, the last one first, and the number of bits written. -/
structure BitWriter where
  octets : List UInt8
  bitLength : Nat

namespace BitWriter

/-- Nothing is written yet. -/
def empty : BitWriter := ⟨[], 0⟩

/-- The octets with room for one more bit. -/
def withRoom (w : BitWriter) : List UInt8 :=
  if w.bitLength % 8 = 0 then 0 :: w.octets else w.octets

/-- Sets the bit at a place of the octet that is written last. -/
def setBit : List UInt8 → (place : Nat) → List UInt8
  | [], _ => []
  | last :: before, place => (last ||| 0x80 >>> UInt8.ofNat place) :: before

/-- Appends a bit. -/
def push (w : BitWriter) (bit : Bool) : BitWriter :=
  ⟨if bit then setBit w.withRoom (w.bitLength % 8) else w.withRoom, w.bitLength + 1⟩

/-- Appends the low `count` bits of a word, the most significant first. -/
def write (w : BitWriter) (value : UInt64) : (count : Nat) → BitWriter
  | 0 => w
  | count + 1 => (w.push (value >>> UInt64.ofNat count &&& 1 == 1)).write value count

/-- The octets from the first on. -/
def toBytes (w : BitWriter) : List UInt8 :=
  w.octets.reverse

end BitWriter

/-- The octets of a bit string, the last one filled up with zero bits. -/
def Bits.toBytes (bits : Bits) : List UInt8 :=
  (bits.foldl BitWriter.push .empty).octets.reverse

end FieldGrammar
