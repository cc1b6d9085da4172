import Mathlib
import FieldGrammar.Decimal.Binary

/-!
# Binary numbers by their values

The integer algorithms of this library take a floating-point number apart bit by bit, while the
operations of floating-point arithmetic are described on an unpacked form: a sign, a significand
and an exponent, or one of the special cases.  The two views are of the same number.  Here they
are connected, and a finite number is given the rational value that both of them write
(`Binary64.HasValue`).

## Main definitions

* `Binary64.Canonical` — the significands and exponents that the format has
* `Dyadic.value`, `Binary64.HasValue` — the rational value of a finite number
* `Binary64.roundAway` — the nearest integer to a rational number, halves away from zero

## Main statements

* `Binary64.unpack_pack_finite` — packing a canonical number loses nothing
* `Binary64.dyadic?_cases` — the exact form against the unpacked one
* `Binary64.nearestInt?_eq_roundAway`, `Binary64.nearestInt?_eq` — the nearest integer, by values
* `Binary64.isFinite_congr`, `Binary64.lt_congr`, `Binary64.le_congr_left` — equal numbers agree
-/

open Float.Model Float.Model.UnpackedFloat

namespace FieldGrammar

namespace Binary64

/-! ### Fields of the packed form -/

/-- The exponent of the packed form is its field of 11 bits. -/
theorem toNat_unpackExponent (b : BitVec 64) :
    (@unpackExponent Format.binary64 b).toNat = (b.toNat >>> 52) % 2048 := by
  simp [unpackExponent]

theorem toNat_unpackMantissa (b : BitVec 64) :
    (@unpackMantissa Format.binary64 b).toNat = b.toNat % 2 ^ 52 := by
  simp [unpackMantissa]

/-- The sign that a sign bit stands for. -/
def signOf (negative : Bool) : Sign :=
  if negative then .negative else .positive

/-- The sign of the packed form is its highest bit. -/
theorem ofBitVec_unpackSign (b : BitVec 64) :
    Sign.ofBitVec (@unpackSign Format.binary64 b) = signOf (b.toNat.testBit 63) := by
  have h : @unpackSign Format.binary64 b = BitVec.ofBool (b.toNat.testBit 63) := by
    apply BitVec.eq_of_toNat_eq
    rw [BitVec.toNat_ofBool, Nat.toNat_testBit]
    simp [unpackSign, Nat.shiftRight_eq_div_pow]
  rw [h]
  cases b.toNat.testBit 63 <;> rfl

/-! ### The four cases of unpacking -/

/-- The greatest exponent with an empty significand is an infinity. -/
theorem unpack_infinity {b : BitVec 64} (h : (b.toNat >>> 52) % 2048 = 2047)
    (hm : b.toNat % 2 ^ 52 = 0) :
    UnpackedFloat.unpack Format.binary64 b = .infinity (signOf (b.toNat.testBit 63)) := by
  have hexp : @unpackExponent Format.binary64 b = -1#_ := by
    apply BitVec.eq_of_toNat_eq
    rw [toNat_unpackExponent, h]
    rfl
  have hman : @unpackMantissa Format.binary64 b = 0#_ := by
    apply BitVec.eq_of_toNat_eq
    rw [toNat_unpackMantissa, hm]
    rfl
  rw [UnpackedFloat.unpack, ← ofBitVec_unpackSign]
  simp only [hexp, hman, if_true]

/-- The greatest exponent with any other significand is not a number. -/
theorem unpack_nan {b : BitVec 64} (h : (b.toNat >>> 52) % 2048 = 2047)
    (hm : b.toNat % 2 ^ 52 ≠ 0) : UnpackedFloat.unpack Format.binary64 b = .notANumber := by
  have hexp : @unpackExponent Format.binary64 b = -1#_ := by
    apply BitVec.eq_of_toNat_eq
    rw [toNat_unpackExponent, h]
    rfl
  have hman : @unpackMantissa Format.binary64 b ≠ 0#_ := by
    intro heq
    exact hm (by rw [← toNat_unpackMantissa, heq]; rfl)
  rw [UnpackedFloat.unpack]
  simp only [hexp, hman, if_true, if_false]

/-- The least exponent with an empty significand is a zero, which has a sign too. -/
theorem unpack_zero {b : BitVec 64} (h : (b.toNat >>> 52) % 2048 = 0)
    (hm : b.toNat % 2 ^ 52 = 0) :
    UnpackedFloat.unpack Format.binary64 b = .zero (signOf (b.toNat.testBit 63)) := by
  have hexp : @unpackExponent Format.binary64 b = 0#_ := by
    apply BitVec.eq_of_toNat_eq
    rw [toNat_unpackExponent, h]
    rfl
  have hman : @unpackMantissa Format.binary64 b = 0#_ := by
    apply BitVec.eq_of_toNat_eq
    rw [toNat_unpackMantissa, hm]
    rfl
  rw [UnpackedFloat.unpack, ← ofBitVec_unpackSign]
  simp only [hexp, hman]
  rfl

/-- The least exponent with any other significand is a number of this significand, without a leading
one. -/
theorem unpack_subnormal {b : BitVec 64} (h : (b.toNat >>> 52) % 2048 = 0)
    (hm : b.toNat % 2 ^ 52 ≠ 0) : ∃ hpos, UnpackedFloat.unpack Format.binary64 b =
      .finite (signOf (b.toNat.testBit 63)) (b.toNat % 2 ^ 52) (-1074) hpos := by
  have hexp : @unpackExponent Format.binary64 b = 0#_ := by
    apply BitVec.eq_of_toNat_eq
    rw [toNat_unpackExponent, h]
    rfl
  have hman : @unpackMantissa Format.binary64 b ≠ 0#_ := by
    intro heq
    exact hm (by rw [← toNat_unpackMantissa, heq]; rfl)
  refine ⟨Nat.pos_of_ne_zero hm, ?_⟩
  rw [UnpackedFloat.unpack, ← ofBitVec_unpackSign]
  simp only [hexp, hman, dif_neg, not_false_eq_true, toNat_unpackMantissa]
  rfl

/-- Any other exponent has a significand with a leading one that is not written. -/
theorem unpack_normal {b : BitVec 64} (h : (b.toNat >>> 52) % 2048 ≠ 0)
    (h' : (b.toNat >>> 52) % 2048 ≠ 2047) : ∃ hpos, UnpackedFloat.unpack Format.binary64 b =
      .finite (signOf (b.toNat.testBit 63)) (2 ^ 52 + b.toNat % 2 ^ 52)
        (((b.toNat >>> 52) % 2048 : Nat) - 1075) hpos := by
  have hexp : @unpackExponent Format.binary64 b ≠ 0#_ := by
    intro heq
    exact h (by rw [← toNat_unpackExponent, heq]; rfl)
  have hexp' : @unpackExponent Format.binary64 b ≠ -1#_ := by
    intro heq
    exact h' (by rw [← toNat_unpackExponent, heq]; rfl)
  have hman : (1#1 ++ @unpackMantissa Format.binary64 b).toNat = 2 ^ 52 + b.toNat % 2 ^ 52 := by
    rw [BitVec.toNat_append, ← Nat.shiftLeft_add_eq_or_of_lt (BitVec.isLt _), toNat_unpackMantissa]
    rfl
  refine ⟨by omega, ?_⟩
  rw [UnpackedFloat.unpack, ← ofBitVec_unpackSign, if_neg hexp', if_neg hexp]
  simp only [hman, toNat_unpackExponent]
  rfl

/-! ### Packing and unpacking -/

/-- The packed form is the sum of its fields, each at its place. -/
theorem toNat_packComponents (s : Sign) (e : BitVec 11) (m : BitVec 52) :
    (packComponents Format.binary64 s e m).toNat =
      s.toBitVec.toNat * 2 ^ 63 + e.toNat * 2 ^ 52 + m.toNat := by
  rw [packComponents, BitVec.toNat_append, BitVec.toNat_append,
    ← Nat.shiftLeft_add_eq_or_of_lt m.isLt, ← Nat.shiftLeft_add_eq_or_of_lt e.isLt]
  simp only [Nat.shiftLeft_eq]
  ring

/-- The fields of packed components.  Together with the lemmas on unpacking this says what a packed
number is unpacked to. -/
theorem fields_packComponents (s : Sign) (e : BitVec 11) (m : BitVec 52) :
    (packComponents Format.binary64 s e m).toNat >>> 52 % 2048 = e.toNat ∧
      (packComponents Format.binary64 s e m).toNat % 2 ^ 52 = m.toNat ∧
      signOf ((packComponents Format.binary64 s e m).toNat.testBit 63) = s := by
  have h1 := m.isLt
  have h2 := e.isLt
  have h3 := s.toBitVec.isLt
  rw [toNat_packComponents, Nat.testBit_eq_decide_div_mod_eq, Nat.shiftRight_eq_div_pow]
  refine ⟨by omega, by omega, ?_⟩
  cases s with
  | negative =>
      have hbit : (Sign.negative.toBitVec.toNat * 2 ^ 63 + e.toNat * 2 ^ 52 + m.toNat) /
          2 ^ 63 % 2 = 1 := by
        rw [show Sign.negative.toBitVec.toNat = 1 from rfl]
        omega
      rw [hbit]
      rfl
  | positive =>
      have hbit : (Sign.positive.toBitVec.toNat * 2 ^ 63 + e.toNat * 2 ^ 52 + m.toNat) /
          2 ^ 63 % 2 = 0 := by
        rw [show Sign.positive.toBitVec.toNat = 0 from rfl]
        omega
      rw [hbit]
      rfl

theorem unpack_pack_zero (s : Sign) : (Float.Model.pack (.zero s)).unpack = .zero s := by
  obtain ⟨hexp, hman, hsign⟩ := fields_packComponents s 0#11 0#52
  show UnpackedFloat.unpack Format.binary64 (packComponents Format.binary64 s 0#11 0#52) = _
  rw [unpack_zero hexp hman, hsign]

theorem unpack_pack_infinity (s : Sign) :
    (Float.Model.pack (.infinity s)).unpack = .infinity s := by
  obtain ⟨hexp, hman, hsign⟩ := fields_packComponents s (-1#11) 0#52
  show UnpackedFloat.unpack Format.binary64 (packComponents Format.binary64 s (-1#11) 0#52) = _
  rw [unpack_infinity hexp hman, hsign]

theorem unpack_pack_nan : (Float.Model.pack .notANumber).unpack = .notANumber := by
  obtain ⟨hexp, hman, -⟩ := fields_packComponents .positive (-1#11) (1#52 <<< 51)
  show UnpackedFloat.unpack Format.binary64
    (packComponents Format.binary64 .positive (-1#11) (1#52 <<< 51)) = _
  exact unpack_nan hexp (by rw [hman]; decide)

/-- A significand and an exponent that the format has.  The significand has as many bits as there is
room for, or fewer at the least exponent. -/
structure Canonical (m : Nat) (e : Int) : Prop where
  lt : m < 2 ^ 53
  minExponent : -1074 ≤ e
  maxExponent : e ≤ 971
  normal : 2 ^ 52 ≤ m ∨ e = -1074

/-- Packing a canonical number loses nothing.  Without a leading one the exponent is the least one,
and otherwise the leading one is left out and put back. -/
theorem unpack_pack_finite {s : Sign} {m : Nat} {e : Int} (hpos : 0 < m) (h : Canonical m e) :
    (Float.Model.pack (.finite s m e hpos)).unpack = .finite s m e hpos := by
  obtain ⟨hlt, hmin, hmax, hnormal⟩ := h
  have hpack : (Float.Model.pack (.finite s m e hpos)).unpack = UnpackedFloat.unpack
      Format.binary64 (UnpackedFloat.pack Format.binary64 (.finite s m e hpos)) := rfl
  have hbiased : ¬ 2 ^ 11 ≤ (e + (1023 : Nat) + (52 : Nat)).toNat + 1 := by omega
  rw [hpack, UnpackedFloat.pack]
  simp only [show Format.binary64.exponentBias = 1023 from rfl, hbiased, if_false]
  -- With all bits in use the leading one is left out; with fewer the exponent is the least one.
  by_cases hm : 2 ^ 52 ≤ m
  · have hlog : m.log2 + 1 = Format.binary64.mantissaBits := by
      rw [(Nat.log2_eq_iff hpos.ne').2 ⟨hm, hlt⟩]
      rfl
    obtain ⟨hexp, hman, hsign⟩ := fields_packComponents s
      (BitVec.ofNat 11 (e + (1023 : Nat) + (52 : Nat)).toNat) (BitVec.ofNat 52 m)
    rw [BitVec.toNat_ofNat] at hexp hman
    rw [if_pos hlog]
    obtain ⟨hp, hunpack⟩ := unpack_normal (b := packComponents Format.binary64 s
      (BitVec.ofNat 11 (e + (1023 : Nat) + (52 : Nat)).toNat) (BitVec.ofNat 52 m))
      (by omega) (by omega)
    rw [hunpack, UnpackedFloat.finite.injEq]
    exact ⟨hsign, by omega, by omega⟩
  · have hlog : ¬ m.log2 + 1 = Format.binary64.mantissaBits := by
      have := (Nat.log2_lt hpos.ne').2 (Nat.not_le.1 hm)
      rw [show Format.binary64.mantissaBits = 53 from rfl]
      omega
    obtain ⟨hexp, hman, hsign⟩ := fields_packComponents s 0#11 (BitVec.ofNat 52 m)
    rw [BitVec.toNat_ofNat] at hman
    rw [if_neg hlog]
    obtain ⟨hp, hunpack⟩ := unpack_subnormal
      (b := packComponents Format.binary64 s 0#11 (BitVec.ofNat 52 m)) hexp (by omega)
    rw [hunpack, UnpackedFloat.finite.injEq]
    exact ⟨hsign, by omega, by omega⟩

/-- What unpacking makes of the fields: an infinity, no number, a zero, or a canonical number. -/
theorem unpack_cases (b : BitVec 64) :
    ((b.toNat >>> 52) % 2048 = 2047 ∧ b.toNat % 2 ^ 52 = 0 ∧
        UnpackedFloat.unpack Format.binary64 b = .infinity (signOf (b.toNat.testBit 63))) ∨
      ((b.toNat >>> 52) % 2048 = 2047 ∧ b.toNat % 2 ^ 52 ≠ 0 ∧
        UnpackedFloat.unpack Format.binary64 b = .notANumber) ∨
      UnpackedFloat.unpack Format.binary64 b = .zero (signOf (b.toNat.testBit 63)) ∨
      ∃ m e hpos, UnpackedFloat.unpack Format.binary64 b =
        .finite (signOf (b.toNat.testBit 63)) m e hpos := by
  by_cases hzero : (b.toNat >>> 52) % 2048 = 0
  · by_cases hm : b.toNat % 2 ^ 52 = 0
    · exact .inr (.inr (.inl (unpack_zero hzero hm)))
    · exact .inr (.inr (.inr ⟨_, _, unpack_subnormal hzero hm⟩))
  · by_cases hspecial : (b.toNat >>> 52) % 2048 = 2047
    · by_cases hm : b.toNat % 2 ^ 52 = 0
      · exact .inl ⟨hspecial, hm, unpack_infinity hspecial hm⟩
      · exact .inr (.inl ⟨hspecial, hm, unpack_nan hspecial hm⟩)
    · exact .inr (.inr (.inr ⟨_, _, unpack_normal hzero hspecial⟩))

/-- A NaN has the greatest exponent field and some bit of the significand. -/
theorem fields_of_unpack_nan {b : BitVec 64}
    (h : UnpackedFloat.unpack Format.binary64 b = .notANumber) :
    (b.toNat >>> 52) % 2048 = 2047 ∧ b.toNat % 2 ^ 52 ≠ 0 := by
  rcases unpack_cases b with ⟨-, -, hunpack⟩ | ⟨hexp, hman, -⟩ | hunpack | ⟨m, e, hpos, hunpack⟩
  · rw [hunpack] at h
    cases h
  · exact ⟨hexp, hman⟩
  · rw [hunpack] at h
    cases h
  · rw [hunpack] at h
    cases h

/-- The sign of an infinity is its sign bit. -/
theorem sign_of_unpack_infinity {b : BitVec 64} {s : Sign}
    (h : UnpackedFloat.unpack Format.binary64 b = .infinity s) :
    signOf (b.toNat.testBit 63) = s := by
  rcases unpack_cases b with ⟨-, -, hunpack⟩ | ⟨-, -, hunpack⟩ | hunpack | ⟨m, e, hpos, hunpack⟩
  · rw [hunpack] at h
    exact UnpackedFloat.infinity.inj h
  · rw [hunpack] at h
    cases h
  · rw [hunpack] at h
    cases h
  · rw [hunpack] at h
    cases h

/-- Packing makes no NaN of anything else.  A NaN has a significand that is not zero at the greatest
exponent, and packing never writes one there. -/
theorem unpack_pack_ne_nan {u : UnpackedFloat} (h : u ≠ .notANumber) :
    (Float.Model.pack u).unpack ≠ .notANumber := by
  intro hnan
  obtain ⟨hexp, hman⟩ := fields_of_unpack_nan hnan
  have hbits : (Float.Model.pack u).toBits.toBitVec = UnpackedFloat.pack Format.binary64 u := rfl
  rw [hbits] at hexp hman
  cases u with
  | notANumber => exact h rfl
  | infinity s =>
      have hfields := fields_packComponents s (-1#11) 0#52
      exact hman hfields.2.1
  | zero s =>
      have hfields := fields_packComponents s 0#11 0#52
      exact hman hfields.2.1
  | finite s m e hpos =>
      rw [UnpackedFloat.pack] at hexp hman
      dsimp only at hexp hman
      split at hexp
      · next hbig =>
        rw [if_pos hbig] at hman
        exact hman (fields_packComponents s (-1#11) 0#52).2.1
      · next hbig =>
        split at hexp
        · rw [(fields_packComponents s _ _).1, BitVec.toNat_ofNat] at hexp
          change ¬ 2048 ≤ _ + 1 at hbig
          change _ % 2048 = 2047 at hexp
          omega
        · rw [(fields_packComponents s _ _).1] at hexp
          cases hexp

/-! ### Exact forms and values -/
/-- What a number is, by its exact form.  This is the bridge between the two views, and most of what
follows is a case analysis with it. -/
theorem dyadic?_cases (x : Float) :
    (dyadic? x = none ∧ ((∃ s, x.toModel.unpack = .infinity s) ∨ x.toModel.unpack = .notANumber)) ∨
      (∃ d, dyadic? x = some d ∧ d.significand = 0 ∧
        x.toModel.unpack = .zero (signOf d.negative)) ∨
      (∃ d hpos, dyadic? x = some d ∧ Canonical d.significand d.exponent ∧
        x.toModel.unpack = .finite (signOf d.negative) d.significand d.exponent hpos) := by
  have hunpack : x.toModel.unpack =
      UnpackedFloat.unpack Format.binary64 x.toModel.toBits.toBitVec := rfl
  have hbits : x.toBits.toNat = x.toModel.toBits.toBitVec.toNat := rfl
  have himplicit : implicitBit = 2 ^ 52 := rfl
  rw [hunpack, dyadic?, hbits]
  simp only [himplicit, signBit, hbits]
  generalize x.toModel.toBits.toBitVec = b
  -- The exponent field decides: the least one, the greatest one, or any other.
  by_cases hzero : (b.toNat >>> 52) % 2048 = 0
  · by_cases hm : b.toNat % 2 ^ 52 = 0
    · refine .inr (.inl ⟨_, if_pos hzero, hm, ?_⟩)
      rw [unpack_zero hzero hm]
    · obtain ⟨hpos, h⟩ := unpack_subnormal hzero hm
      refine .inr (.inr ⟨_, hpos, if_pos hzero, ⟨?_, le_rfl, by norm_num, .inr rfl⟩, h⟩)
      have hfraction := Nat.mod_lt b.toNat (show 0 < 2 ^ 52 by decide)
      dsimp only
      omega
  · by_cases hspecial : (b.toNat >>> 52) % 2048 = 2047
    · refine .inl ⟨by rw [if_neg hzero, if_pos hspecial], ?_⟩
      by_cases hm : b.toNat % 2 ^ 52 = 0
      · exact .inl ⟨_, unpack_infinity hspecial hm⟩
      · exact .inr (unpack_nan hspecial hm)
    · obtain ⟨hpos, h⟩ := unpack_normal hzero hspecial
      refine .inr (.inr ⟨_, hpos, by rw [if_neg hzero, if_neg hspecial], ?_, h⟩)
      have hfraction := Nat.mod_lt b.toNat (show 0 < 2 ^ 52 by decide)
      have hbiased := Nat.mod_lt (b.toNat >>> 52) (show 0 < 2048 by decide)
      constructor
      · dsimp only
        omega
      · dsimp only [Int.ofNat_eq_natCast]
        omega
      · dsimp only [Int.ofNat_eq_natCast]
        omega
      · exact .inl (Nat.le_add_right _ _)

end Binary64

/-- The rational number that an exact form writes. -/
def Dyadic.value (d : Dyadic) : ℚ :=
  d.signed d.significand * 2 ^ d.exponent

namespace Binary64

/-- The number is finite and has this exact value.  Statements about numbers are made in this form
where arithmetic on rational numbers is to be used. -/
def HasValue (x : Float) (q : ℚ) : Prop :=
  ∃ d, dyadic? x = some d ∧ d.value = q

/-- A number has one value. -/
theorem HasValue.unique {x : Float} {p q : ℚ} (hp : HasValue x p) (hq : HasValue x q) : p = q := by
  obtain ⟨d, hd, rfl⟩ := hp
  obtain ⟨d', hd', rfl⟩ := hq
  rw [hd, Option.some.injEq] at hd'
  rw [hd']

private theorem signed_eq_apply (d : Dyadic) (n : Nat) :
    d.signed n = (signOf d.negative).apply n := by
  rw [Dyadic.signed, signOf]
  cases d.negative <;> rfl

/-- What the unpacked form of a number with a value is. -/
theorem unpack_of_hasValue {x : Float} {q : ℚ} (h : HasValue x q) :
    (q = 0 ∧ ∃ s, x.toModel.unpack = .zero s) ∨
      ∃ s m e hpos, x.toModel.unpack = .finite s m e hpos ∧ Canonical m e ∧
        q = s.apply m * 2 ^ e := by
  obtain ⟨d, hd, rfl⟩ := h
  rcases dyadic?_cases x with ⟨hnone, -⟩ | ⟨d', hd', hzero, hunpack⟩ |
    ⟨d', hpos, hd', hcanonical, hunpack⟩
  · rw [hnone] at hd
    cases hd
  · rw [hd', Option.some.injEq] at hd
    subst hd
    refine .inl ⟨?_, _, hunpack⟩
    rw [Dyadic.value, hzero, signed_eq_apply]
    cases d'.negative <;> simp [signOf, Sign.apply]
  · rw [hd', Option.some.injEq] at hd
    subst hd
    refine .inr ⟨_, _, _, hpos, hunpack, hcanonical, ?_⟩
    rw [Dyadic.value, signed_eq_apply]

/-- The unpacked form of a number other than zero. -/
theorem unpack_of_dyadic? {x : Float} {d : Dyadic} (hd : dyadic? x = some d)
    (hne : d.significand ≠ 0) :
    ∃ hpos, x.toModel.unpack = .finite (signOf d.negative) d.significand d.exponent hpos := by
  rcases dyadic?_cases x with ⟨hnone, -⟩ | ⟨d', hd', hzero, -⟩ | ⟨d', hpos, hd', -, hunpack⟩
  · rw [hnone] at hd
    cases hd
  · rw [hd', Option.some.injEq] at hd
    exact absurd (hd ▸ hzero) hne
  · rw [hd', Option.some.injEq] at hd
    subst hd
    exact ⟨hpos, hunpack⟩

/-- A zero of either sign has the value zero. -/
theorem hasValue_of_unpack_zero {x : Float} {s : Sign} (h : x.toModel.unpack = .zero s) :
    HasValue x 0 := by
  rcases dyadic?_cases x with ⟨-, ⟨s', hs'⟩ | hnan⟩ | ⟨d, hd, hzero, -⟩ | ⟨d, hpos, -, -, hunpack⟩
  · rw [hs'] at h
    cases h
  · rw [hnan] at h
    cases h
  · refine ⟨d, hd, ?_⟩
    rw [Dyadic.value, hzero, signed_eq_apply]
    cases d.negative <;> simp [signOf, Sign.apply]
  · rw [hunpack] at h
    cases h

/-- A finite number has the value of its significand at its exponent. -/
theorem hasValue_of_unpack_finite {x : Float} {s : Sign} {m : Nat} {e : Int} {hpos : 0 < m}
    (h : x.toModel.unpack = .finite s m e hpos) : HasValue x (s.apply m * 2 ^ e) := by
  rcases dyadic?_cases x with ⟨-, ⟨s', hs'⟩ | hnan⟩ | ⟨d, -, -, hunpack⟩ | ⟨d, hp, hd, -, hunpack⟩
  · rw [hs'] at h
    cases h
  · rw [hnan] at h
    cases h
  · rw [hunpack] at h
    cases h
  · rw [hunpack, UnpackedFloat.finite.injEq] at h
    obtain ⟨rfl, rfl, rfl⟩ := h
    refine ⟨d, hd, ?_⟩
    rw [Dyadic.value, signed_eq_apply]

/-- A number has a value when it is finite, and only then; the value is unique. -/
theorem isFinite_iff {x : Float} : x.isFinite = true ↔ ∃ q, HasValue x q := by
  have hfinite : x.isFinite = x.toModel.unpack.isFinite := rfl
  rw [hfinite]
  constructor
  · intro h
    cases hunpack : x.toModel.unpack with
    | zero s => exact ⟨_, hasValue_of_unpack_zero hunpack⟩
    | finite s m e hpos => exact ⟨_, hasValue_of_unpack_finite hunpack⟩
    | infinity s =>
        rw [hunpack] at h
        cases h
    | notANumber =>
        rw [hunpack] at h
        cases h
  · rintro ⟨q, hq⟩
    rcases unpack_of_hasValue hq with ⟨-, s, h⟩ | ⟨s, m, e, hpos, h, -⟩
    · rw [h]
      rfl
    · rw [h]
      rfl

/-! ### Nearest integers -/

/-- The magnitude of an exact form is its numerator over its denominator. -/
theorem magnitude_eq (d : Dyadic) :
    (d.significand : ℚ) * 2 ^ d.exponent = d.numerator / d.denominator := by
  rw [Dyadic.numerator, Dyadic.denominator, Nat.shiftLeft_eq, Nat.shiftLeft_eq, one_mul]
  push_cast
  rw [mul_div_assoc, ← zpow_natCast, ← zpow_natCast, ← zpow_sub₀ (by norm_num)]
  congr 2
  omega

/-- The nearest integer to a rational number; a half goes away from zero. -/
def roundAway (q : ℚ) : ℤ :=
  if 0 ≤ q then round q else -round (-q)

/-- From zero on, halves go up, as in Mathlib's `round`. -/
theorem roundAway_of_nonneg {q : ℚ} (h : 0 ≤ q) : roundAway q = round q :=
  if_pos h

/-- Opposite numbers are rounded to opposite integers, as halves go away from zero on both sides. -/
theorem roundAway_neg (q : ℚ) : roundAway (-q) = -roundAway q := by
  rcases lt_trichotomy q 0 with h | rfl | h
  · rw [roundAway, if_pos (by linarith), roundAway, if_neg (by linarith), neg_neg]
  · simp [roundAway]
  · rw [roundAway, if_neg (by linarith), neg_neg, roundAway_of_nonneg h.le]

/-- The nearest integers are in the order of what they are nearest to. -/
theorem roundAway_mono {p q : ℚ} (h : p ≤ q) : roundAway p ≤ roundAway q := by
  have hround : ∀ {a b : ℚ}, a ≤ b → round a ≤ round b := fun hab => by
    rw [round_eq, round_eq]
    exact Int.floor_le_floor (by linarith)
  have hnonneg : ∀ {a : ℚ}, 0 ≤ a → 0 ≤ round a := fun ha => by
    simpa using hround ha
  rw [roundAway, roundAway]
  split <;> split
  · exact hround h
  · linarith
  · have hp := @hnonneg (-p) (by linarith)
    have hq := @hnonneg q (by linarith)
    omega
  · exact neg_le_neg (hround (neg_le_neg h))

/-- Less than a half away from an integer, that integer is the nearest one. -/
theorem roundAway_eq_of_close {q : ℚ} {n : Int} (h : |q - n| < 1 / 2) : roundAway q = n := by
  rw [abs_lt] at h
  rw [roundAway]
  split
  · exact round_eq_iff.2 ⟨by linarith [h.1], by linarith [h.2]⟩
  · rw [neg_eq_iff_eq_neg]
    refine round_eq_iff.2 ⟨?_, ?_⟩ <;> push_cast <;> linarith [h.1, h.2]

@[simp] theorem roundAway_intCast (n : Int) : roundAway n = n :=
  roundAway_eq_of_close (by norm_num)

/-- The nearest integer to a number is that to its value.  The algorithm divides with remainder and
compares twice the remainder with the divisor; the value is only looked at. -/
theorem nearestInt?_eq_roundAway {x : Float} {q : ℚ} (hx : HasValue x q) :
    nearestInt? x = some (roundAway q) := by
  obtain ⟨d, hd, rfl⟩ := hx
  have hden : (0 : ℚ) < d.denominator := by
    rw [Dyadic.denominator, Nat.shiftLeft_eq, one_mul]
    exact_mod_cast Nat.two_pow_pos _
  have hmagnitude : roundAway (d.significand * 2 ^ d.exponent) =
      ((2 * d.numerator + d.denominator) / (2 * d.denominator) : Nat) := by
    have hhalf : (d.numerator / d.denominator + 1 / 2 : ℚ) =
        (2 * d.numerator + d.denominator : Nat) / (2 * d.denominator : Nat) := by
      push_cast
      field_simp
    rw [roundAway_of_nonneg (by positivity), magnitude_eq, round_eq, hhalf,
      Rat.floor_natCast_div_natCast, Int.natCast_ediv]
  rw [nearestInt?, hd, Option.map_some, Dyadic.nearest, Dyadic.value, Dyadic.signed, Dyadic.signed,
    ← hmagnitude]
  congr 1
  split
  · rw [← roundAway_neg]
    congr 1
    push_cast
    ring
  · rw [Int.cast_natCast]

/-- A number less than a half away from an integer is rounded to it. -/
theorem nearestInt?_eq {x : Float} {q : ℚ} (hx : HasValue x q) {n : Int} (h : |q - n| < 1 / 2) :
    nearestInt? x = some n := by
  rw [nearestInt?_eq_roundAway hx, roundAway_eq_of_close h]

/-! ### Comparisons -/

/-- Comparisons of numbers are those of their unpacked forms. -/
theorem lt_iff_unpack {x y : Float} :
    x < y ↔ x.toModel.unpack.compare y.toModel.unpack = some .lt := by
  show (decide (x.toModel < y.toModel) = true) ↔ _
  rw [decide_eq_true_iff]
  show (x.toModel.unpack.compare y.toModel.unpack == some .lt) = true ↔ _
  rw [beq_iff_eq]

theorem le_iff_unpack {x y : Float} :
    x ≤ y ↔ (x.toModel.unpack.compare y.toModel.unpack).any (·.isLE) = true := by
  show (decide (x.toModel ≤ y.toModel) = true) ↔ _
  rw [decide_eq_true_iff]
  rfl

theorem beq_iff_unpack {x y : Float} :
    (x == y) = true ↔ x.toModel.unpack.compare y.toModel.unpack = some .eq := by
  show (x.toModel.unpack.compare y.toModel.unpack == some .eq) = true ↔ _
  rw [beq_iff_eq]

/-- What compares equal is the same but for the sign of zero.  There is one canonical form for each
value other than zero. -/
private theorem eq_of_compare_eq {u v : UnpackedFloat} (h : u.compare v = some .eq) :
    u = v ∨ ∃ s t, u = .zero s ∧ v = .zero t := by
  cases u with
  | notANumber => cases h
  | infinity s =>
      cases v with
      | infinity t => cases s <;> cases t <;> first | exact .inl rfl | cases h
      | notANumber => cases h
      | zero | finite => cases s <;> cases h
  | zero s =>
      cases v with
      | zero t => exact .inr ⟨s, t, rfl, rfl⟩
      | notANumber => cases h
      | infinity t => cases t <;> cases h
      | finite t => cases t <;> cases h
  | finite s m e hm =>
      cases v with
      | notANumber => cases h
      | infinity t => cases s <;> cases t <;> cases h
      | zero t => cases s <;> cases h
      | finite t n f hn =>
          left
          rw [UnpackedFloat.finite.injEq]
          cases s <;> cases t
          · change some ((compare e f).then (compare m n)).swap = some .eq at h
            simp only [Option.some.injEq, Ordering.swap_eq_eq, Ordering.then_eq_eq,
              compare_eq_iff_eq] at h
            exact ⟨rfl, h.2, h.1⟩
          · cases h
          · cases h
          · change some ((compare e f).then (compare m n)) = some .eq at h
            simp only [Option.some.injEq, Ordering.then_eq_eq, compare_eq_iff_eq] at h
            exact ⟨rfl, h.2, h.1⟩

/-- The sign of zero has no influence on comparisons. -/
private theorem compare_zero (s t : Sign) (u : UnpackedFloat) :
    (UnpackedFloat.zero s).compare u = (UnpackedFloat.zero t).compare u ∧
      u.compare (.zero s) = u.compare (.zero t) := by
  cases u with
  | notANumber | zero => exact ⟨rfl, rfl⟩
  | infinity r => cases r <;> exact ⟨rfl, rfl⟩
  | finite r => cases r <;> exact ⟨rfl, rfl⟩

/-- Equal numbers compare alike with every number. -/
private theorem compare_congr {x y : Float} (h : (x == y) = true) (u : UnpackedFloat) :
    x.toModel.unpack.compare u = y.toModel.unpack.compare u ∧
      u.compare x.toModel.unpack = u.compare y.toModel.unpack := by
  rcases eq_of_compare_eq (beq_iff_unpack.1 h) with heq | ⟨s, t, hx, hy⟩
  · rw [heq]
    exact ⟨rfl, rfl⟩
  · rw [hx, hy]
    exact compare_zero s t u

/-- **Equal numbers agree on comparisons**, on either side.  Equality is that of floating-point
numbers, so this includes zeros of both signs. -/
theorem lt_congr {x x' y y' : Float} (hx : (x == x') = true) (hy : (y == y') = true) :
    x < y ↔ x' < y' := by
  rw [lt_iff_unpack, lt_iff_unpack, (compare_congr hx _).1, (compare_congr hy _).2]

theorem le_congr_left {x x' : Float} (hx : (x == x') = true) (y : Float) : x ≤ y ↔ x' ≤ y := by
  rw [le_iff_unpack, le_iff_unpack, (compare_congr hx _).1]

/-- **Equal numbers agree on being finite.** -/
theorem isFinite_congr {x y : Float} (h : (x == y) = true) : x.isFinite = y.isFinite := by
  show x.toModel.unpack.isFinite = y.toModel.unpack.isFinite
  rcases eq_of_compare_eq (beq_iff_unpack.1 h) with heq | ⟨s, t, hx, hy⟩
  · rw [heq]
  · rw [hx, hy]
    rfl

/-- A number other than NaN equals itself. -/
theorem beq_self {x : Float} (h : x.isNaN = false) : (x == x) = true := by
  rw [beq_iff_unpack]
  have hnan : x.toModel.unpack.isNaN = false := h
  cases hx : x.toModel.unpack with
  | notANumber => rw [hx] at hnan; cases hnan
  | infinity s => cases s <;> rfl
  | zero s => rfl
  | finite s m e hpos =>
      have hself : (compare e e).then (compare m m) = .eq := by
        rw [Ordering.then_eq_eq, compare_eq_iff_eq, compare_eq_iff_eq]
        exact ⟨rfl, rfl⟩
      cases s
      · show some ((compare e e).then (compare m m)).swap = some .eq
        rw [hself]
        rfl
      · show some ((compare e e).then (compare m m)) = some .eq
        rw [hself]

theorem isNaN_of_isFinite {x : Float} (h : x.isFinite = true) : x.isNaN = false := by
  have hfinite : x.toModel.unpack.isFinite = true := h
  show x.toModel.unpack.isNaN = false
  cases hx : x.toModel.unpack with
  | notANumber => rw [hx] at hfinite; cases hfinite
  | infinity | zero | finite => rfl

/-- A finite number that is not at most zero is positive: its unpacked form has a significand and
the positive sign. -/
theorem unpack_of_not_le_zero {x : Float} (hfinite : x.isFinite = true) (h : ¬x ≤ 0.0) :
    ∃ m e hpos, x.toModel.unpack = .finite .positive m e hpos ∧ Canonical m e := by
  have hzero : ∃ s, (0.0 : Float).toModel.unpack = .zero s := by
    have hform : dyadic? 0.0 = some ⟨false, 0, -1074, false⟩ := by decide +kernel
    rcases dyadic?_cases 0.0 with ⟨hnone, -⟩ | ⟨d, -, -, hz⟩ | ⟨d, hp, hd, -, -⟩
    · rw [hform] at hnone
      cases hnone
    · exact ⟨_, hz⟩
    · rw [hform, Option.some.injEq] at hd
      rw [← hd] at hp
      exact absurd hp (lt_irrefl 0)
  obtain ⟨t, ht⟩ := hzero
  obtain ⟨q, hq⟩ := isFinite_iff.1 hfinite
  rw [le_iff_unpack, ht] at h
  rcases unpack_of_hasValue hq with ⟨-, s, hx⟩ | ⟨s, m, e, hpos, hx, hcanonical, -⟩
  · rw [hx] at h
    exact absurd rfl h
  · cases s with
    | positive => exact ⟨m, e, hpos, hx, hcanonical⟩
    | negative =>
        rw [hx] at h
        exact absurd rfl h

end Binary64

end FieldGrammar
