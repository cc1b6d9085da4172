import FieldGrammar.Decimal.Binary

/-!
# The fewest digits that identify a number

A floating-point number is written with the fewest decimal digits that read back to it, and
among those with the ones closest to its exact value.  The selection is a search over
decimal grids, carried out in exact natural-number arithmetic: on the grid of `n` significant
digits only the two neighbours of the value can lie in the interval of reals that round to it,
and the first grid with a neighbour in that interval wins.

## Main definitions

* `Tie` — which of two equally close candidates is taken
* `Decimal` — digits and a power of ten
* `Dyadic.shortest` — the selected digits of a magnitude
-/

namespace FieldGrammar

/-- Which of two equally close candidates is taken. -/
inductive Tie where
  | up
  | even
  deriving DecidableEq, Repr

/-- A power of ten. -/
def tenTo (n : Nat) : Nat :=
  Nat.pow 10 n

/-- The decimal number `digits * 10 ^ exponent`. -/
structure Decimal where
  digits : Nat
  exponent : Int
  deriving DecidableEq, Repr

namespace Decimal

/-- The same number with the trailing zeros of the digits moved into the exponent.  At most
`fuel` of them are moved. -/
def strip : (fuel : Nat) → Decimal → Decimal
  | 0, d => d
  | fuel + 1, d =>
    if d.digits % 10 = 0 ∧ d.digits ≠ 0 then strip fuel ⟨d.digits / 10, d.exponent + 1⟩ else d

/-- The digits of the number, most significant first. -/
def digitChars (d : Decimal) : List Char :=
  Nat.toDigits 10 d.digits

end Decimal

namespace Dyadic

/-- Whether the decimal `digits * 10 ^ grid` rounds to the number: it lies between the
midpoints to the two neighbours, the ends included exactly when the significand is even.  All
quantities are compared as multiples of a quarter unit over the common denominator. -/
def roundsHere (d : Dyadic) (digits : Nat) (grid : Int) : Bool :=
  let unit := 1 <<< d.exponent.toNat
  let lower := 4 * d.numerator - (if d.narrow then unit else 2 * unit)
  let upper := 4 * d.numerator + 2 * unit
  let candidate := 4 * digits * tenTo grid.toNat * d.denominator
  let scale := tenTo (-grid).toNat
  if d.significand % 2 = 0 then
    lower * scale ≤ candidate && candidate ≤ upper * scale
  else
    lower * scale < candidate && candidate < upper * scale

/-- The exponent of ten just above the magnitude: the least `k` with `magnitude < 10 ^ k`.
Below one, the leading zeros are counted, at most `fuel` of them. -/
def scaleBelowOne (d : Dyadic) : (fuel : Nat) → (zeros : Nat) → Int
  | 0, zeros => -(zeros : Int)
  | fuel + 1, zeros =>
    if d.denominator ≤ d.numerator * tenTo (zeros + 1) then -(zeros : Int)
    else scaleBelowOne d fuel (zeros + 1)

/-- The least `k` with `magnitude < 10 ^ k`. -/
def scale (d : Dyadic) : Int :=
  if d.denominator ≤ d.numerator then
    (Nat.toDigits 10 (d.numerator / d.denominator)).length
  else scaleBelowOne d 400 0

/-- The best candidate with `places` significant digits, if one of the two neighbours of the
value on that grid identifies it. -/
def onGrid? (d : Dyadic) (tie : Tie) (places : Nat) : Option Decimal :=
  let grid := d.scale - (places : Int)
  let top := d.numerator * tenTo (-grid).toNat
  let bottom := d.denominator * tenTo grid.toNat
  let low := top / bottom
  let twice := 2 * (top % bottom)
  let closer :=
    if twice < bottom then low
    else if bottom < twice then low + 1
    else match tie with
      | .up => low + 1
      | .even => if low % 2 = 0 then low else low + 1
  match roundsHere d low grid, roundsHere d (low + 1) grid with
  | true, true => some ⟨closer, grid⟩
  | true, false => some ⟨low, grid⟩
  | false, true => some ⟨low + 1, grid⟩
  | false, false => none

/-- The exact value as a decimal: a power of two in the denominator divides the same power of
ten. -/
def exactDecimal (d : Dyadic) : Decimal :=
  let places := (-d.exponent).toNat
  ⟨d.numerator * tenTo places / d.denominator, -(places : Int)⟩

/-- The fewest digits that identify the magnitude, and of those the closest to it.  Seventeen
digits always suffice; zero has the single digit `0`. -/
def shortest (d : Dyadic) (tie : Tie) : Decimal :=
  if d.significand = 0 then ⟨0, 0⟩
  else
    let found := (List.range 17).findSome? fun n => onGrid? d tie (n + 1)
    (found.getD (exactDecimal d)).strip 800

end Dyadic

end FieldGrammar
