import FieldGrammar.Bits.Basic
import FieldGrammar.Decimal.Binary

/-!
# Ranges and grids

A bounded number is written as its offset from the lower bound, in the least number of bits
that can hold every offset of the range.  Distances are taken in 64-bit words: for bounds in
order they are exact, and a range of more than half the words is still one.

A fixed-point number is stored as a whole number of steps of its field's precision, and that number
of steps is a bounded number.  When the precision is the reciprocal of a whole number, such as 0.1,
0.25 or 0.001, steps are turned back into numbers by dividing by that whole number, so that the
result is the floating-point number closest to the intended decimal; otherwise they are multiplied
by the precision.

## Main definitions

* `distance`, `advance` — from bounds to offsets and back
* `Grid` — a precision with what it takes to turn steps into numbers
* `Grid.stepsOf`, `Grid.valueOf` — the nearest step of a number, and the number at a step
-/

namespace FieldGrammar

/-! ## Ranges of bounded numbers -/

/-- The distance from `low` to `high` as a 64-bit word. -/
def distance (low high : Int64) : Nat :=
  ((high.toInt - low.toInt) % UInt64.size).toNat

/-- The integer at an offset from `low`, as a 64-bit integer. -/
def advance (low : Int64) (offset : Nat) : Int64 :=
  Int64.ofInt (low.toInt + offset)

/-- The greatest option index of a list of options.  A list without options has no index; the
greatest 64-bit word, which is the word below zero, stands in for it. -/
def lastIndex : (options : Nat) → Nat
  | 0 => UInt64.size - 1
  | last + 1 => last

/-- The distance between two lengths as a 32-bit word. -/
def lengthSpan (minLength maxLength : UInt32) : Nat :=
  (maxLength - minLength).toNat

/-- The distance between bounds in order is their exact difference. -/
theorem distance_of_le {low high : Int64} (h : low.toInt ≤ high.toInt) :
    (distance low high : Int) = high.toInt - low.toInt := by
  have h1 := Int64.le_toInt low
  have h2 := Int64.toInt_lt high
  have hsize : (UInt64.size : Int) = 18446744073709551616 := rfl
  have h3 : (high.toInt - low.toInt) % UInt64.size = high.toInt - low.toInt :=
    Int.emod_eq_of_lt (by omega) (by omega)
  unfold distance
  rw [h3]
  omega

/-- A distance fits 64 bits. -/
theorem distance_lt (low high : Int64) : distance low high < UInt64.size := by
  simp only [distance, UInt64.size]
  omega

/-- With at least one option, the greatest index is one less than their number. -/
theorem lastIndex_of_pos {options : Nat} (h : 0 < options) : lastIndex options = options - 1 := by
  cases options with
  | zero => exact absurd h (Nat.lt_irrefl 0)
  | succ last => rfl

/-- Every index of a list of options is at most the greatest one. -/
theorem le_lastIndex {options index : Nat} (h : index < options) : index ≤ lastIndex options := by
  rw [lastIndex_of_pos (Nat.zero_lt_of_lt h)]
  omega

/-! ## Fixed-point grids -/

/-- A precision, and the whole number that it is the reciprocal of, if any. -/
structure Grid where
  precision : Float
  divisor : Option Float

namespace Grid

/-- The grid of a precision.  A precision below one counts as a reciprocal when its inverse is
within `1e-9` of a whole number. -/
def ofPrecision (precision : Float) : Grid :=
  let inverse := 1.0 / precision
  let whole := Binary64.nearestWhole inverse
  if precision < 1.0 ∧ (inverse - whole).abs < 1e-9 then ⟨precision, some whole⟩
  else ⟨precision, none⟩

/-- The number of steps nearest to a number, limited to the 64-bit range. -/
def stepsOf (grid : Grid) (x : Float) : Int64 :=
  match grid.divisor with
  | some divisor => Binary64.nearestInt64 (x * divisor)
  | none => Binary64.nearestInt64 (x / grid.precision)

/-- The number at a number of steps. -/
def valueOf (grid : Grid) (steps : Int64) : Float :=
  match grid.divisor with
  | some divisor => Binary64.ofInt64 steps / divisor
  | none => Binary64.ofInt64 steps * grid.precision

end Grid

end FieldGrammar
