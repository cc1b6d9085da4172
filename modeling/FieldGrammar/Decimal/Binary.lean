/-!
# Binary floating-point numbers, taken apart

The fixed-point fields of a schema are bounded by 64-bit floating-point numbers.  Everything
this library decides about such a number — whether it is whole, which integer is nearest,
which decimal digits identify it — is decided in exact integer arithmetic on its binary form,
so that the decisions can be computed and reasoned about without any rounding of their own.

## Main definitions

* `Dyadic` — a sign, a significand and a power of two
* `Binary64.dyadic?` — the exact form of a finite number
* `Binary64.wholeValue?` — the integer that a finite number without fraction is
* `Binary64.nearestInt?` — the nearest integer, halves going away from zero
* `Binary64.nearestWhole` — that integer as a floating-point number again
* `clampInt64`, `Binary64.nearestInt64` — integers and roundings limited to 64 bits
-/

namespace FieldGrammar

/-- The exact form `± significand * 2 ^ exponent` of a finite floating-point number. -/
structure Dyadic where
  /-- The sign bit, which zero carries too. -/
  negative : Bool
  significand : Nat
  exponent : Int
  /-- Whether the gap to the next number towards zero is half the gap away from zero. -/
  narrow : Bool
  deriving DecidableEq, Repr

namespace Dyadic

/-- The magnitude as a numerator over a power of two. -/
def numerator (d : Dyadic) : Nat :=
  d.significand <<< d.exponent.toNat

/-- The power of two under the numerator. -/
def denominator (d : Dyadic) : Nat :=
  1 <<< (-d.exponent).toNat

/-- The sign applied to a magnitude. -/
def signed (d : Dyadic) (magnitude : Nat) : Int :=
  if d.negative then -(magnitude : Int) else magnitude

/-- Whether the number is an integer. -/
def isWhole (d : Dyadic) : Bool :=
  d.numerator % d.denominator == 0

/-- The nearest integer; a half goes away from zero. -/
def nearest (d : Dyadic) : Int :=
  d.signed ((2 * d.numerator + d.denominator) / (2 * d.denominator))

end Dyadic

/-- The integer of the 64-bit range that is closest to `n`. -/
def clampInt64 (n : Int) : Int64 :=
  if n < Int64.minValue.toInt then Int64.minValue
  else if Int64.maxValue.toInt < n then Int64.maxValue
  else Int64.ofInt n

namespace Binary64

/-- Whether the sign bit is set. -/
def signBit (x : Float) : Bool :=
  x.toBits.toNat.testBit 63

/-- The leading bit of a significand, which normal numbers do not store. -/
def implicitBit : Nat :=
  1 <<< 52

/-- The exact form of a finite number; NaN and the infinities have none. -/
def dyadic? (x : Float) : Option Dyadic :=
  let bits : Nat := x.toBits.toNat
  let biased : Nat := (bits >>> 52) % 2048
  let fraction : Nat := bits % implicitBit
  if biased = 0 then some ⟨signBit x, fraction, -1074, false⟩
  else if biased = 2047 then none
  else
    let narrow := fraction == 0 && 1 < biased
    some ⟨signBit x, implicitBit + fraction, Int.ofNat biased - 1075, narrow⟩

/-- The integer that a finite number without fractional part is. -/
def wholeValue? (x : Float) : Option Int := do
  let d ← dyadic? x
  guard d.isWhole
  return d.nearest

/-- The nearest integer to a finite number; a half goes away from zero. -/
def nearestInt? (x : Float) : Option Int :=
  (dyadic? x).map Dyadic.nearest

/-- The nearest whole floating-point number.  The sign of zero is kept, and a number that is
not finite stays as it is. -/
def nearestWhole (x : Float) : Float :=
  match nearestInt? x with
  | none => x
  | some 0 => if signBit x then -0.0 else 0.0
  | some n => Float.ofInt n

/-- The nearest integer, limited to the 64-bit range; NaN counts as zero. -/
def nearestInt64 (x : Float) : Int64 :=
  match nearestInt? x with
  | some n => clampInt64 n
  | none => if x.isNaN then 0 else if signBit x then Int64.minValue else Int64.maxValue

/-- The floating-point number nearest to a 64-bit integer. -/
def ofInt64 (n : Int64) : Float :=
  Float.ofInt n.toInt

end Binary64

end FieldGrammar
