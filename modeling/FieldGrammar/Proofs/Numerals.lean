import Mathlib
import FieldGrammar.Json.Lexer

/-!
# Numerals

What is read as a numeral consists of digits and the few other characters of a numeral, and it
starts with a digit or a sign.  So the lexer gathers all of it and nothing behind it, whatever
number it writes.

The decimal digits of an integer are read back as this integer, within the range of the signed and
the unsigned integers of 64 bits.

## Main statements

* `Numeral.isNumeralText_of_read?` — the characters of a numeral
* `Numeral.read?_toString` — integers are read back
-/

namespace FieldGrammar

namespace Numeral

open Json.Lexer

/-! ### The characters of a numeral -/

/-- Characters of numerals only. -/
def AllNumeral (chars : List Char) : Prop :=
  ∀ c ∈ chars, isNumeralChar c = true

theorem isNumeralChar_of_isDigit {c : Char} (h : c.isDigit = true) : isNumeralChar c = true := by
  simp [isNumeralChar, h]

theorem AllNumeral.cons {c : Char} {chars : List Char} (hc : isNumeralChar c = true)
    (h : AllNumeral chars) : AllNumeral (c :: chars) :=
  List.forall_mem_cons.2 ⟨hc, h⟩

/-- Digits are characters of numerals, so only what follows them matters. -/
theorem AllNumeral.of_dropWhile {chars : List Char}
    (h : AllNumeral (chars.dropWhile Char.isDigit)) : AllNumeral chars := by
  intro c hc
  rw [← List.takeWhile_append_dropWhile (p := Char.isDigit) (l := chars), List.mem_append] at hc
  rcases hc with hc | hc
  · exact isNumeralChar_of_isDigit (List.mem_takeWhile_imp hc)
  · exact h c hc

theorem allNumeral_of_takeDigits {chars : List Char} {digits : List Nat}
    (h : takeDigits chars = (digits, [])) : AllNumeral chars := by
  refine .of_dropWhile ?_
  rw [(Prod.mk.inj h).2]
  exact nofun

/-- An exponent is a mark, perhaps a sign, and digits to the end of the text. -/
theorem allNumeral_of_exponent? {chars : List Char} {e : Option (Bool × List Nat)}
    (h : exponent? chars = some e) : AllNumeral chars := by
  cases chars with
  | nil => exact nofun
  | cons mark rest =>
      rw [exponent?.eq_def] at h
      dsimp only at h
      -- The mark may be followed by either sign or by none; the digits behind are treated alike.
      split at h
      · next hmark =>
        refine .cons (by rcases hmark with rfl | rfl <;> rfl) ?_
        split at h
        · cases h
        · next hdigits =>
          have hunsigned := allNumeral_of_takeDigits hdigits
          -- The sign in front of the digits is a character of numerals too.
          split at hunsigned
          · exact .cons rfl hunsigned
          · exact .cons rfl hunsigned
          · exact hunsigned
        · cases h
      · cases h

/-- What follows the whole digits: a point with digits, an exponent, or both. -/
theorem allNumeral_of_tail? {chars : List Char}
    {found : Option (List Nat) × Option (Bool × List Nat)} (h : tail? chars = some found) :
    AllNumeral chars := by
  rw [tail?.eq_def] at h
  split at h
  · refine .cons rfl ?_
    split at h
    · cases h
    · next hdigits =>
      obtain ⟨e, he, -⟩ := Option.map_eq_some_iff.1 h
      refine .of_dropWhile ?_
      rw [(Prod.mk.inj hdigits).2]
      exact allNumeral_of_exponent? he
  · obtain ⟨e, he, -⟩ := Option.map_eq_some_iff.1 h
    exact allNumeral_of_exponent? he

/-- A text that starts like a numeral and holds characters of numerals only.  The lexer decides by
the first character what it has before it, and then gathers as long as the characters are of
numerals. -/
def IsNumeralText (chars : List Char) : Prop :=
  AllNumeral chars ∧ ∃ c rest, chars = c :: rest ∧ (c.isDigit = true ∨ c = '-')

/-- Some digits and the tail of a numeral. -/
theorem isNumeralText_of_digits {chars rest : List Char} {digits : List Nat} (hne : digits ≠ [])
    {found : Option (List Nat) × Option (Bool × List Nat)}
    (hdigits : takeDigits chars = (digits, rest)) (htail : tail? rest = some found) :
    IsNumeralText chars := by
  obtain ⟨htaken, hrest⟩ := Prod.mk.inj hdigits
  refine ⟨.of_dropWhile (hrest ▸ allNumeral_of_tail? htail), ?_⟩
  cases chars with
  | nil => exact absurd htaken.symm hne
  | cons c rest =>
      refine ⟨c, rest, rfl, .inl ?_⟩
      by_contra hc
      rw [List.takeWhile_cons_of_neg hc] at htaken
      exact hne htaken.symm

/-- **What is read as a numeral is a text of numeral characters**, whatever number it writes. -/
theorem isNumeralText_of_read? {chars : List Char} {value : Json} (h : read? chars = some value) :
    IsNumeralText chars := by
  obtain ⟨parts, hparts, -⟩ := Option.map_eq_some_iff.1 h
  rw [parts?.eq_def] at hparts
  dsimp only at hparts
  split at hparts
  · cases hparts
  · cases hparts
  · next hne _ hdigits =>
    obtain ⟨found, hfound, -⟩ := Option.map_eq_some_iff.1 hparts
    have hunsigned := isNumeralText_of_digits hne hdigits hfound
    split at hunsigned
    · exact ⟨.cons rfl hunsigned.1, '-', _, rfl, .inr rfl⟩
    · exact hunsigned

/-! ### Integers -/

/-- The number of a digit. -/
def digitValue (c : Char) : Nat := c.toNat - '0'.toNat

/-- What counts as a digit has the number of its distance from zero. -/
theorem digit?_of_isDigit {c : Char} (h : c.isDigit = true) :
    digit? c = some (digitValue c) := by
  rw [Char.isDigit, Bool.and_eq_true, decide_eq_true_iff, decide_eq_true_iff] at h
  rw [digit?]
  exact if_pos h

/-- Of a text of digits all are taken, with their numbers. -/
theorem takeDigits_of_digits {chars : List Char} (h : ∀ c ∈ chars, c.isDigit = true) :
    takeDigits chars = (chars.map digitValue, []) := by
  rw [takeDigits, List.takeWhile_eq_self_iff.2 h, List.dropWhile_eq_nil_iff.2 h]
  refine congrArg (·, []) ?_
  induction chars with
  | nil => rfl
  | cons c rest ih =>
      obtain ⟨hc, hrest⟩ := List.forall_mem_cons.1 h
      rw [List.filterMap_cons_some (digit?_of_isDigit hc), ih hrest, List.map_cons]

/-- The first digit moves what came before up by one place. -/
theorem ofDigitChars_cons (c : Char) (rest : List Char) (start : Nat) :
    Nat.ofDigitChars 10 (c :: rest) start = Nat.ofDigitChars 10 rest (10 * start + digitValue c) :=
  Nat.ofDigitChars_cons

/-- Further digits do not make a number smaller.  So if the whole number fits, every number on the
way to it fits, which is what `gather_digits` needs. -/
theorem le_ofDigitChars (digits : List Char) (start : Nat) :
    start ≤ Nat.ofDigitChars 10 digits start := by
  induction digits generalizing start with
  | nil => exact le_rfl
  | cons c rest ih =>
      rw [ofDigitChars_cons]
      exact le_trans (by omega) (ih _)

/-- Digits are gathered if their number fits.  The induction is from the left, with the significand
so far as the number to start from. -/
theorem gather_digits (digits : List Char) (start : Nat)
    (h : Nat.ofDigitChars 10 digits start < UInt64.size) :
    gather start (digits.map digitValue) =
      (Nat.ofDigitChars 10 digits start, []) := by
  induction digits generalizing start with
  | nil => rfl
  | cons c rest ih =>
      rw [ofDigitChars_cons] at h ⊢
      have hstart := le_ofDigitChars rest (10 * start + digitValue c)
      rw [List.map_cons, gather, Nat.mul_comm start, if_pos (hstart.trans_lt h), ih _ h]

/-- The decimal digits of a positive number start with another one than zero. -/
theorem exists_toDigits_of_pos {n : Nat} (hn : 0 < n) :
    ∃ c rest, Nat.toDigits 10 n = c :: rest ∧ c ≠ '0' := by
  induction n using Nat.strongRecOn with
  | ind n ih =>
      rcases Nat.lt_or_ge n 10 with hlt | hge
      · refine ⟨n.digitChar, [], Nat.toDigits_of_lt_base hlt, fun hzero => ?_⟩
        have hvalue := Nat.toNat_digitChar_of_lt_ten hlt
        rw [hzero] at hvalue
        have h48 : '0'.toNat = 48 := rfl
        omega
      · obtain ⟨c, rest, hdigits, hc⟩ := ih (n / 10) (by omega) (by omega)
        refine ⟨c, rest ++ [(n % 10).digitChar], ?_, hc⟩
        rw [Nat.toDigits_of_base_le (by decide) hge, hdigits, List.cons_append]

/-- Of the digits, zero alone has the number zero. -/
theorem digitValue_ne_zero {c : Char} (h : c.isDigit = true) (hne : c ≠ '0') :
    digitValue c ≠ 0 := by
  rw [Char.isDigit, Bool.and_eq_true, decide_eq_true_iff, decide_eq_true_iff] at h
  intro hzero
  refine hne (Char.toNat_inj.1 ?_)
  have hle : '0'.toNat ≤ c.toNat := h.1
  rw [digitValue] at hzero
  omega

/-- Digits without a leading zero are the integer part of a numeral, behind a sign or not. Zero
itself is a single digit and may lead. -/
theorem parts?_of_digits {c : Char} {rest : List Char}
    (hdigits : ∀ d ∈ c :: rest, d.isDigit = true) (hlead : c ≠ '0' ∨ rest = []) :
    parts? (c :: rest) = some ⟨false, (c :: rest).map digitValue, none, none⟩ ∧
      parts? ('-' :: c :: rest) = some ⟨true, (c :: rest).map digitValue, none, none⟩ := by
  have htake := takeDigits_of_digits hdigits
  have hc := hdigits c List.mem_cons_self
  have hsign : c ≠ '-' := by
    rintro rfl
    cases hc
  have hwhole : ∀ head tail, (c :: rest).map digitValue ≠ 0 :: head :: tail := by
    intro head tail heq
    rw [List.map_cons, List.cons.injEq] at heq
    obtain ⟨hzero, htail⟩ := heq
    rcases hlead with hne | rfl
    · exact digitValue_ne_zero hc hne hzero
    · cases htail
  constructor <;> rw [parts?, htake]
  case left.x =>
    rintro _ heq
    exact hsign (List.cons.inj heq).1
  -- With and without a sign the same digits are left.
  all_goals
    split
    · next heq => cases heq
    · next heq => exact absurd (Prod.mk.inj heq).1 (hwhole _ _)
    · next heq =>
      cases heq
      rfl

/-- The decimal digits of a number are the integer part of a numeral: they have no leading zero,
except that zero is one. -/
theorem parts?_toDigits (n : Nat) :
    parts? (Nat.toDigits 10 n) =
        some ⟨false, (Nat.toDigits 10 n).map digitValue, none, none⟩ ∧
      parts? ('-' :: Nat.toDigits 10 n) =
        some ⟨true, (Nat.toDigits 10 n).map digitValue, none, none⟩ := by
  have hdigits : ∀ c ∈ Nat.toDigits 10 n, c.isDigit = true := fun c hc =>
    Nat.isDigit_of_mem_toDigits (by decide) (by decide) hc
  rcases Nat.eq_zero_or_pos n with rfl | hpos
  · exact parts?_of_digits hdigits (.inr rfl)
  · obtain ⟨c, rest, heq, hne⟩ := exists_toDigits_of_pos hpos
    rw [heq] at hdigits ⊢
    exact parts?_of_digits hdigits (.inl hne)

/-- A number of 64 bits is gathered from its decimal digits, and none is left over. -/
theorem gather_toDigits {n : Nat} (hn : n < UInt64.size) :
    gather 0 ((Nat.toDigits 10 n).map digitValue) = (n, []) := by
  have hvalue : Nat.ofDigitChars 10 (Nat.toDigits 10 n) 0 = n :=
    Nat.ofDigitChars_toDigits (by decide) (by decide)
  rw [gather_digits _ _ (hvalue.symm ▸ hn), hvalue]

/-- **Integers are read back** from their decimal digits.  The range is that of the signed 64-bit
integers below zero, and that of the unsigned ones above. -/
theorem read?_toString {n : Int} (hmin : Int64.minValue.toInt ≤ n) (hmax : n < UInt64.size) :
    read? (toString n).toList = some (.int n) := by
  rw [Int.toString_eq_repr, Int.repr_eq_if]
  -- A number that is not negative has digits alone; any other is a sign and the digits of its
  -- opposite, where zero does not occur.
  split
  · next hsign =>
    obtain ⟨m, rfl⟩ := Int.eq_ofNat_of_zero_le hsign
    have hm : m < UInt64.size := by exact_mod_cast hmax
    rw [Int.toNat_natCast, Nat.toList_repr, read?, (parts?_toDigits m).1, Option.map_some,
      Parts.value]
    dsimp only
    rw [gather_toDigits hm]
    rfl
  · next hsign =>
    obtain ⟨m, hm⟩ := Int.eq_ofNat_of_zero_le (show 0 ≤ -n by omega)
    have hsize : UInt64.size = 2 ^ 64 := rfl
    have hleast : Int64.minValue.toInt = -2 ^ 63 := rfl
    have hmsize : m < UInt64.size := by omega
    have hrange : 0 < m ∧ Int64.minValue.toInt ≤ -(m : Int) := by omega
    rw [hm, Int.toNat_natCast, String.toList_append, Nat.toList_repr, read?,
      show "-".toList ++ Nat.toDigits 10 m = '-' :: Nat.toDigits 10 m from rfl,
      (parts?_toDigits m).2, Option.map_some, Parts.value]
    dsimp only
    rw [gather_toDigits hmsize]
    show some (if 0 < m ∧ Int64.minValue.toInt ≤ -(m : Int) then Json.int (-(m : Int)) else _) = _
    rw [if_pos hrange, ← hm, Int.neg_neg]

end Numeral

end FieldGrammar
