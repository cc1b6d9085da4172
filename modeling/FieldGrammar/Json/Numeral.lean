import FieldGrammar.Json.Basic

/-!
# Numerals of JSON text

A numeral has an integer part without leading zeros, an optional fraction and an optional
exponent.  Its value is found in one pass over the digits: they are gathered into a 64-bit
significand for as long as it can hold them, later digits of the integer part only raise the
exponent, and later digits of the fraction are dropped.  The significand is then scaled by a
power of ten with one rounding, or, below the range of powers of ten, with several.

A numeral without fraction and exponent is an integer if its value fits 64 bits, signed or
unsigned.  Minus zero is no integer.
-/

namespace FieldGrammar

namespace Numeral

/-- The parts of a numeral, digits as numbers. -/
structure Parts where
  negative : Bool
  whole : List Nat
  fraction : Option (List Nat)
  exponent : Option (Bool × List Nat)

/-- The value of a decimal digit. -/
def digit? (c : Char) : Option Nat :=
  if '0' ≤ c ∧ c ≤ '9' then some (c.toNat - '0'.toNat) else none

/-- The digits that a text starts with, and the rest. -/
def takeDigits (chars : List Char) : List Nat × List Char :=
  ((chars.takeWhile Char.isDigit).filterMap digit?, chars.dropWhile Char.isDigit)

/-- The exponent of a numeral: a mark, an optional sign and at least one digit.  Nothing may
follow. -/
def exponent? : List Char → Option (Option (Bool × List Nat))
  | [] => some none
  | mark :: rest =>
    if mark = 'e' ∨ mark = 'E' then
      let (negative, rest) := match rest with
        | '-' :: rest => (true, rest)
        | '+' :: rest => (false, rest)
        | rest => (false, rest)
      match takeDigits rest with
      | ([], _) => none
      | (digits, []) => some (some (negative, digits))
      | (_, _ :: _) => none
    else none

/-- The fraction and the exponent of a numeral. -/
def tail? : List Char → Option (Option (List Nat) × Option (Bool × List Nat))
  | '.' :: rest =>
    match takeDigits rest with
    | ([], _) => none
    | (digits, rest) => (exponent? rest).map fun e => (some digits, e)
  | rest => (exponent? rest).map fun e => (none, e)

/-- The parts of a numeral, if the text is one. -/
def parts? (chars : List Char) : Option Parts :=
  let (negative, chars) := match chars with
    | '-' :: rest => (true, rest)
    | rest => (false, rest)
  match takeDigits chars with
  | ([], _) => none
  | (0 :: _ :: _, _) => none
  | (whole, rest) => (tail? rest).map fun (fraction, e) => ⟨negative, whole, fraction, e⟩

/-- Gathers digits into a significand of 64 bits, and gives the digits from the first one
on that it cannot hold. -/
def gather : (significand : Nat) → List Nat → Nat × List Nat
  | significand, [] => (significand, [])
  | significand, d :: rest =>
    if significand * 10 + d < UInt64.size then gather (significand * 10 + d) rest
    else (significand, d :: rest)

/-- A significand times a power of ten, if it is finite.  Up to 308 places are one
multiplication or division; further places down are divided off first. -/
def scaled? : (fuel : Nat) → (x : Float) → (exponent : Int) → Option Float
  | 0, x, _ => some x
  | fuel + 1, x, exponent =>
    if exponent.natAbs ≤ 308 then
      let power := Float.ofScientific 1 false exponent.natAbs
      if 0 ≤ exponent then
        let y := x * power
        if y.isInf then none else some y
      else some (x / power)
    else if x == 0.0 then some x
    else if 0 ≤ exponent then none
    else scaled? fuel (x / 1e308) (exponent + 308)

/-- The exponent of a numeral, limited to what 32 bits can hold. -/
def limitedExponent (start : Int) (negative : Bool) (exponent : Nat) : Int :=
  if negative then max (start - exponent) Int32.minValue.toInt
  else min (start + exponent) Int32.maxValue.toInt

/-- The magnitude of a numeral as a floating-point number, if there is one: the digits that
have been gathered, and the power of ten that the places left and right of them make. -/
def magnitude? (significand : Nat) (start : Int) (exponent : Option (Bool × List Nat)) :
    Option Float :=
  let x := Float.ofNat significand
  match exponent with
  | none => scaled? 8 x start
  | some (negative, digits) =>
    let e : Nat := digits.foldl (fun e d => 10 * e + d) 0
    if (e : Int) ≤ Int32.maxValue.toInt then scaled? 8 x (limitedExponent start negative e)
    else if significand ≠ 0 ∧ !negative then none
    else some 0.0

/-- The value of a numeral. -/
def Parts.value (parts : Parts) : Json :=
  let (significand, dropped) := gather 0 parts.whole
  let sign (x : Float) : Float := if parts.negative then -x else x
  let real (x : Option Float) : Json := match x with
    | some x => .real (sign x)
    | none => .unreadable
  match parts.fraction, parts.exponent with
  | none, none =>
    if dropped.isEmpty then
      if !parts.negative then .int significand
      else if 0 < significand ∧ Int64.minValue.toInt ≤ -(significand : Int) then
        .int (-(significand : Int))
      else .real (-(Float.ofNat significand))
    else real (magnitude? significand dropped.length none)
  | none, exponent => real (magnitude? significand dropped.length exponent)
  | some fraction, exponent =>
    let (significand, unread) := gather significand fraction
    let places : Int := dropped.length - (fraction.length - unread.length : Nat)
    real (magnitude? significand places exponent)

/-- The value of a text that is a numeral. -/
def read? (chars : List Char) : Option Json :=
  (parts? chars).map Parts.value

end Numeral

end FieldGrammar
