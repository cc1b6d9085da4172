import FieldGrammar.Decimal.Shortest

/-!
# Laying out a number

Three texts of a floating-point number occur in the output of this library: the one in
debugging form, the plain one in messages, and the one in JSON text.  They share the selection
of digits (`Dyadic.shortest`) and differ in layout alone, so the layout is a record,
`NumberStyle`, and the three texts are three values of it.

* `NumberStyle.debug` — positional between `1e-4` and `1e16`, whole numbers keep `.0`
* `NumberStyle.plain` — always positional, whole numbers without a point
* `NumberStyle.json` — positional between `1e-5` and `1e16`, exponents signed, `null` for what
  JSON cannot write
-/

namespace FieldGrammar

/-- How the selected digits of a number are laid out. -/
structure NumberStyle where
  /-- Which of two equally close digit strings is taken. -/
  tie : Tie
  /-- Whether a number whose leading digit stands at this power of ten is written
  positionally. -/
  positional : Int → Bool
  /-- Whether a whole number in positional form keeps a point and a zero. -/
  keepsPoint : Bool
  /-- Whether a positive exponent carries a sign. -/
  signsExponent : Bool
  /-- The texts of NaN and of the two infinities. -/
  nan : String
  infinity : String
  negativeInfinity : String

namespace NumberStyle

/-- The debugging form. -/
def debug : NumberStyle :=
  ⟨.up, fun e => -4 ≤ e && e < 16, true, false, "NaN", "inf", "-inf"⟩

/-- The plain form: never an exponent. -/
def plain : NumberStyle :=
  ⟨.up, fun _ => true, false, false, "NaN", "inf", "-inf"⟩

/-- The form in JSON text. -/
def json : NumberStyle :=
  ⟨.even, fun e => -5 ≤ e && e < 16, true, true, "null", "null", "null"⟩

/-- Digits in positional form: zeros fill the places that the digits leave open. -/
def layPositional (style : NumberStyle) (digits : List Char) (exponent : Int) : List Char :=
  let zeros (n : Nat) : List Char := List.replicate n '0'
  let whole := (digits.length : Int) + exponent
  if 0 ≤ exponent then
    digits ++ zeros exponent.toNat ++ (if style.keepsPoint then ['.', '0'] else [])
  else if 0 < whole then
    digits.take whole.toNat ++ '.' :: digits.drop whole.toNat
  else
    '0' :: '.' :: zeros (-whole).toNat ++ digits

/-- Digits with an exponent: one digit before the point, no point when it stands alone. -/
def layExponent (style : NumberStyle) (digits : List Char) (lead : Int) : List Char :=
  let mantissa := match digits with
    | [] => []
    | [d] => [d]
    | d :: rest => d :: '.' :: rest
  let sign := if lead < 0 then ['-'] else if style.signsExponent then ['+'] else []
  mantissa ++ 'e' :: sign ++ Nat.toDigits 10 lead.natAbs

/-- The text of the magnitude of a finite number. -/
def magnitude (style : NumberStyle) (d : Dyadic) : List Char :=
  let chosen := d.shortest style.tie
  let digits := chosen.digitChars
  let lead := (digits.length : Int) + chosen.exponent - 1
  if d.significand = 0 || style.positional lead then style.layPositional digits chosen.exponent
  else style.layExponent digits lead

/-- The characters of a number in the given style. -/
def chars (style : NumberStyle) (x : Float) : List Char :=
  match Binary64.dyadic? x with
  | some d => if d.negative then '-' :: style.magnitude d else style.magnitude d
  | none =>
    if x.isNaN then style.nan.toList
    else if Binary64.signBit x then style.negativeInfinity.toList
    else style.infinity.toList

/-- The text of a number in the given style. -/
def text (style : NumberStyle) (x : Float) : String :=
  String.ofList (style.chars x)

end NumberStyle

end FieldGrammar
