import FieldGrammar.Bits.Basic
import FieldGrammar.Error

/-!
# Reading bit strings

A `BitReader` is a bit string together with the number of bits already consumed.  Reading a
number either returns it with the advanced reader or fails without consuming anything; the
failure names the number of bits asked for and the offset at which they were missing.

`BitReader.repeated` applies a reading function a number of times.  It carries the results in
an accumulator; `repeated_zero` and `repeated_succ` are its equations.

A `BitCursor` is a place in a string of octets, counted in bits.  Reading moves it from bit to bit
and shifts each bit into a word, so that a read may begin and end anywhere within an octet.  Fewer
bits than asked for are not read at all, and then the cursor does not move.  A cursor reads what a
`BitReader` of the bits behind it reads.

## Main definitions

* `BitReader.read`, `BitReader.readWord` — read a number, and a word
* `BitReader.repeated` — reads several items
* `BitCursor.read` — reads a word
* `BitCursor.reads` — reads words of some widths, whatever becomes of each
-/

namespace FieldGrammar

/-! ## Readers of bits -/

/-- The unread part of a bit string and the number of bits before it. -/
structure BitReader where
  offset : Nat
  rest : Bits

namespace BitReader

/-- A reader at the start of a string of octets. -/
def ofBytes (bytes : List UInt8) : BitReader :=
  ⟨0, Bits.ofBytes bytes⟩

/-- The number of unread bits. -/
def remaining (r : BitReader) : Nat :=
  r.rest.length

/-- Reads a number of `n` bits. -/
def read (r : BitReader) (n : Nat) : Except Error (Nat × BitReader) :=
  match Bits.splitAt? n r.rest with
  | some (taken, rest) => .ok (Bits.toNat taken, ⟨r.offset + n, rest⟩)
  | none => .error (.corruptToken "" (.endOfData n r.offset))

/-- Reads `n` bits into a 64-bit word; of more than 64 bits the last ones count. -/
def readWord (r : BitReader) (n : Nat) : Except Error (UInt64 × BitReader) :=
  match r.read n with
  | .ok (value, r) => .ok (UInt64.ofNat value, r)
  | .error e => .error e

variable {α : Type}

/-- Applies a reading function `n` times; `done` holds the results so far in reverse. -/
def repeatedFrom (step : BitReader → Except Error (α × BitReader)) :
    (n : Nat) → BitReader → (done : List α) → Except Error (List α × BitReader)
  | 0, r, done => .ok (done.reverse, r)
  | n + 1, r, done =>
    match step r with
    | .ok (a, r) => repeatedFrom step n r (a :: done)
    | .error e => .error e

/-- Applies a reading function `n` times. -/
def repeated (step : BitReader → Except Error (α × BitReader)) (n : Nat) (r : BitReader) :
    Except Error (List α × BitReader) :=
  repeatedFrom step n r []

private theorem repeatedFrom_eq (step : BitReader → Except Error (α × BitReader)) (n : Nat)
    (r : BitReader) (done : List α) :
    repeatedFrom step n r done =
      (repeated step n r).map fun (items, r) => (done.reverse ++ items, r) := by
  induction n generalizing r done with
  | zero => simp [repeatedFrom, repeated, Except.map]
  | succ n ih =>
    simp only [repeated, repeatedFrom]
    cases step r with
    | error e => rfl
    | ok found =>
      obtain ⟨a, r⟩ := found
      simp only [ih r (a :: done), ih r [a]]
      cases repeated step n r <;> simp [Except.map]

@[simp] theorem repeated_zero (step : BitReader → Except Error (α × BitReader)) (r : BitReader) :
    repeated step 0 r = .ok ([], r) := rfl

/-- Reading `n + 1` items is reading one and then `n`. -/
theorem repeated_succ (step : BitReader → Except Error (α × BitReader)) (n : Nat)
    (r : BitReader) :
    repeated step (n + 1) r = (do
      let (a, r) ← step r
      let (items, r) ← repeated step n r
      return (a :: items, r)) := by
  simp only [repeated, repeatedFrom]
  cases step r with
  | error e => rfl
  | ok found =>
    obtain ⟨a, r⟩ := found
    simp only [repeatedFrom_eq step n r [a]]
    show _ = (do let (items, r) ← repeated step n r; return (a :: items, r) : Except Error _)
    cases repeated step n r <;> rfl

end BitReader

/-! ## Cursors in octets -/

/-- A string of octets and the number of its bits that are already read. -/
structure BitCursor where
  bytes : List UInt8
  position : Nat

namespace BitCursor

/-- A cursor at the start of a string of octets. -/
def ofBytes (bytes : List UInt8) : BitCursor :=
  ⟨bytes, 0⟩

/-- The number of unread bits. -/
def remaining (c : BitCursor) : Nat :=
  8 * c.bytes.length - c.position

/-- The bit at the position.  There is one as long as bits are left. -/
def bit (c : BitCursor) : UInt8 :=
  c.bytes.getD (c.position / 8) 0 >>> UInt8.ofNat (7 - c.position % 8) &&& 1

/-- The cursor behind the next bits. -/
def advance (c : BitCursor) (count : Nat) : BitCursor :=
  { c with position := c.position + count }

/-- The next `count` bits, shifted into a word from the right. -/
def shiftIn (c : BitCursor) (value : UInt64) : (count : Nat) → UInt64
  | 0 => value
  | count + 1 => (c.advance 1).shiftIn (value <<< 1 ||| c.bit.toUInt64) count

/-- Reads a word of `n` bits.  The cursor is a variable: it moves behind the bits that are read, and
stays where it is if there are too few. -/
def read (n : Nat) : StateM BitCursor (Except Error UInt64) := fun c =>
  if c.remaining < n then (.error (.corruptToken "" (.endOfData n c.position)), c)
  else (.ok (c.shiftIn 0 n), c.advance n)

/-- Reads words of some widths, in order.  A read that fails does not keep the next from being
tried. -/
def reads (widths : List Nat) : StateM BitCursor (List (Except Error UInt64)) :=
  widths.mapM read

end BitCursor

end FieldGrammar
