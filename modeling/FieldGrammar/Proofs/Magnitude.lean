import Mathlib
import FieldGrammar.Proofs.NumberOrder

/-!
# Numbers that are at least one, and numbers that are no NaN

A fixed-point grid converts an integer and then divides by a whole number or multiplies by the
precision.  None of these steps makes a NaN of a number, as long as what it divides or multiplies
by is finite and not zero.  The whole number is the rounded inverse of a precision below one: it
is at least one in magnitude because rounding does not cross one (`Binary64.Large`).

## Main statements

* `Binary64.large_pack_round` — rounding does not cross one
* `Binary64.large_ofInt` — converted integers
* `Binary64.isNaN_div`, `Binary64.isNaN_mul` — operations that make no NaN
-/

open Float.Model Float.Model.UnpackedFloat

namespace FieldGrammar

namespace Binary64

/-! ### At least one in magnitude -/

/-- At least one in magnitude, infinity included.  A NaN is not, so large numbers can be divided by.
-/
def Large (x : Float) : Prop :=
  (∃ s, x.toModel.unpack = .infinity s) ∨
    ∃ s m e hpos, x.toModel.unpack = .finite s m e hpos ∧ 2 ^ 52 ≤ m ∧ -52 ≤ e

/-- A full significand at an exponent of -52 or more is at least one in magnitude. -/
theorem large_pack_finite {s : Sign} {m : Nat} {e : Int} (hpos : 0 < m) (hlt : m < 2 ^ 53)
    (hm : 2 ^ 52 ≤ m) (he : -52 ≤ e) : Large (.ofModel (.pack (.finite s m e hpos))) := by
  by_cases hmax : e ≤ 971
  · exact .inr ⟨s, m, e, hpos, unpack_pack_finite hpos ⟨hlt, by omega, hmax, .inl hm⟩, hm, he⟩
  · exact .inl ⟨s, unpack_pack_overflow hpos (by omega)⟩

/-- What is at least one before rounding is so after it, because one is a number of the format. -/
theorem large_pack_round (s : Sign) {m : Nat} {e : Int} (accuracy : Accuracy)
    (hlog : 52 ≤ m.log2) (hone : 0 ≤ (m.log2 : Int) + e) :
    Large (.ofModel (.pack (roundWithAccuracy Format.binary64 s m e accuracy))) := by
  have hexp : roundingExponent m e = m.log2 + e - 52 := by
    rw [roundingExponent]
    omega
  have hr : 2 ^ 52 ≤ roundedSignificand m e accuracy :=
    le_roundedSignificand accuracy (.inl hlog) (by omega)
  rcases roundWithAccuracy_cases s accuracy (show e ≤ roundingExponent m e by omega) with
    ⟨hzero, -⟩ | ⟨hlt, hpos, hfinite⟩ | ⟨-, hpos, hcarry⟩
  · omega
  · rw [hfinite]
    exact large_pack_finite hpos hlt hr (by omega)
  · rw [hcarry]
    exact large_pack_finite hpos (by decide) le_rfl (by omega)

/-- The sign does not change the magnitude. -/
theorem large_neg {x : Float} (h : Large x) : Large (-x) := by
  have hneg : -x = .ofModel (.pack (UnpackedFloat.neg x.toModel.unpack)) := rfl
  rcases h with ⟨s, hs⟩ | ⟨s, m, e, hpos, hfinite, hm, he⟩
  · rw [hneg, hs]
    exact .inl ⟨-s, unpack_pack_infinity (-s)⟩
  · rw [hneg, hfinite]
    have hvalue := unpack_of_hasValue (hasValue_of_unpack_finite hfinite)
    rcases hvalue with ⟨-, t, hzero⟩ | ⟨t, n, f, hn, hunpack, hcanonical, -⟩
    · rw [hzero] at hfinite
      cases hfinite
    · rw [hunpack, UnpackedFloat.finite.injEq] at hfinite
      obtain ⟨rfl, rfl, rfl⟩ := hfinite
      exact large_pack_finite hpos hcanonical.lt hm he

/-- What is at least one stays so when it is multiplied by one. -/
theorem large_mul_one {x : Float} (h : Large x) :
    Large (x * Float.ofBits 0x3FF0000000000000) := by
  obtain ⟨hone, hunpack⟩ := unpack_of_dyadic? dyadic?_one (by decide)
  have hmul : x * Float.ofBits 0x3FF0000000000000 = .ofModel (.pack (UnpackedFloat.mul
    Format.binary64 x.toModel.unpack (Float.ofBits 0x3FF0000000000000).toModel.unpack)) := rfl
  rw [hmul, hunpack]
  rcases h with ⟨s, hs⟩ | ⟨s, m, e, hpos, hfinite, hm, he⟩
  · rw [hs]
    exact .inl ⟨_, unpack_pack_infinity _⟩
  · rw [hfinite]
    have hlog : 52 ≤ m.log2 := (Nat.le_log2 hpos.ne').2 hm
    refine large_pack_round _ .exact ?_ ?_
    · rw [log2_mul_two_pow hpos]
      omega
    · rw [log2_mul_two_pow hpos]
      dsimp only
      push_cast
      omega

/-- A decimal without exponent is rounded once. -/
private theorem ofScientific_zero {n : Nat} (hn : n ≠ 0) :
    UnpackedFloat.ofScientific Format.binary64 n 0 = roundWithAccuracy Format.binary64 .positive
      (n * 2 ^ 53) (-53) .exact := by
  have hlog : ¬ (0 : Int) < -(((2 : Int) ^ 11) + n.log2) := by omega
  have hbig : ¬ (0 : Int) > 2 ^ 11 := by norm_num
  have hbits : Format.binary64.mantissaBits = 53 := rfl
  have hsign : Sign.positive * Sign.positive = .positive := rfl
  rw [UnpackedFloat.ofScientific, dif_neg hn, if_neg hbig, if_neg hlog,
    if_pos le_rfl, UnpackedFloat.mul, hsign, hbits, Nat.shiftLeft_eq]
  simp only [Int.toNat_zero, pow_zero, mul_one, add_zero, Nat.cast_ofNat]

/-- A large natural number is converted by rounding once. -/
theorem ofNat_eq_ofModel {n : Nat} (h : 2 ^ 53 ≤ n) :
    Float.ofNat n = .ofModel (.pack (roundWithAccuracy Format.binary64 .positive
      (n * 2 ^ 53) (-53) .exact)) := by
  have hofNat : Float.ofNat n = Float.ofScientific n false 0 := rfl
  have hmodel : Float.Model.ofScientific n (Int.ofNat 0) =
      .pack (UnpackedFloat.ofScientific Format.binary64 n 0) := rfl
  rw [hofNat, Float.ofScientific, dif_neg fun hn => absurd hn.1 (by omega)]
  simp only [Bool.false_eq_true, if_false, hmodel]
  rw [ofScientific_zero (by omega)]

/-- A positive integer is converted to a number that is at least one. -/
theorem large_ofNat {n : Nat} (hn : 0 < n) : Large (Float.ofNat n) := by
  by_cases hsmall : n < 2 ^ 53
  · rw [ofNat_eq_mul hsmall]
    refine large_mul_one ?_
    obtain ⟨k, hround, hlog⟩ := ofNat_eq_round hn
    rw [toFloat_toUInt64 hsmall, hround]
    refine large_pack_round _ .exact ?_ ?_
    · rwa [log2_mul_two_pow hn]
    · rw [log2_mul_two_pow hn]
      push_cast
      omega
  · rw [ofNat_eq_ofModel (Nat.not_lt.1 hsmall)]
    refine large_pack_round _ .exact ?_ ?_
    · rw [log2_mul_two_pow hn]
      omega
    · rw [log2_mul_two_pow hn]
      push_cast
      omega

/-- An integer other than zero is converted to a number that is at least one in magnitude. -/
theorem large_ofInt {n : Int} (hn : n ≠ 0) : Large (Float.ofInt n) := by
  cases n with
  | ofNat n => exact large_ofNat (Nat.pos_of_ne_zero fun h => hn (by rw [h]; rfl))
  | negSucc n => exact large_neg (large_ofNat (Nat.succ_pos n))

/-- No natural number is converted to a negative one. -/
theorem nonneg_of_hasValue_ofNat {n : Nat} {v : ℚ} (h : HasValue (Float.ofNat n) v) : 0 ≤ v := by
  by_cases hsmall : n < 2 ^ 53
  · rw [ofNat_eq_mul hsmall, toFloat_toUInt64 hsmall] at h
    have hn : |(n : ℚ)| ≤ 2 ^ (53 : Int) := by
      rw [Nat.abs_cast]
      exact_mod_cast hsmall.le
    obtain ⟨u, hu, -⟩ := (isRounded_ofNat n).error (by norm_num) (by norm_num) hn
    have hnonneg := (isRounded_ofNat n).nonneg (Nat.cast_nonneg n) hu
    exact (isRounded_mul hu hasValue_one).nonneg (by rwa [mul_one]) h
  · rw [ofNat_eq_ofModel (Nat.not_lt.1 hsmall)] at h
    have hlog : 52 ≤ (n * 2 ^ 53).log2 := by
      rw [log2_mul_two_pow (by omega)]
      omega
    refine (IsRounded.round .positive (.inl hlog) (represents_exact _)).nonneg ?_ h
    rw [signValue, one_mul]
    positivity

/-! ### NaN -/

/-- Rounding a number gives a number. -/
theorem roundWithAccuracy_ne_nan (s : Sign) (m : Nat) (e : Int) (accuracy : Accuracy) :
    roundWithAccuracy Format.binary64 s m e accuracy ≠ .notANumber := by
  rw [roundWithAccuracy]
  dsimp only
  intro h
  split at h
  · cases h
  · cases h

/-- Packing makes no NaN of what is none. -/
theorem isNaN_pack {u : UnpackedFloat} (h : u ≠ .notANumber) :
    (Float.ofModel (.pack u)).isNaN = false := by
  have hpack := unpack_pack_ne_nan h
  show (Float.Model.pack u).unpack.isNaN = false
  cases hunpack : (Float.Model.pack u).unpack with
  | notANumber => exact absurd hunpack hpack
  | infinity | zero | finite => rfl

/-- An integer is not converted to NaN. -/
theorem unpack_ofInt_ne_nan (n : Int) : (Float.ofInt n).toModel.unpack ≠ .notANumber := by
  by_cases hn : n = 0
  · subst hn
    obtain ⟨v, hv, -⟩ := hasValue_ofNat (n := 0) le_rfl (by norm_num) (N := 0) (by norm_num)
    have hzero : (Float.ofInt 0).toModel.unpack = (Float.ofNat 0).toModel.unpack := rfl
    rw [hzero]
    rcases unpack_of_hasValue hv with ⟨-, s, h⟩ | ⟨s, m, e, hpos, h, -⟩
    · rw [h]
      exact nofun
    · rw [h]
      exact nofun
  · rcases large_ofInt hn with ⟨s, h⟩ | ⟨s, m, e, hpos, h, -⟩
    · rw [h]
      exact nofun
    · rw [h]
      exact nofun

/-- A number divided by one that is finite and not zero. -/
theorem isNaN_div {x y : Float} (hx : x.toModel.unpack ≠ .notANumber)
    {s : Sign} {m : Nat} {e : Int} {hpos : 0 < m} (hy : y.toModel.unpack = .finite s m e hpos) :
    (x / y).isNaN = false := by
  have hdiv : x / y = .ofModel (.pack (UnpackedFloat.div Format.binary64 x.toModel.unpack
    y.toModel.unpack)) := rfl
  rw [hdiv, hy]
  refine isNaN_pack ?_
  cases hux : x.toModel.unpack with
  | notANumber => exact absurd hux hx
  | infinity t => exact nofun
  | zero t => exact nofun
  | finite t n f hn => exact roundWithAccuracy_ne_nan _ _ _ _

/-- A number multiplied by one that is finite and not zero. -/
theorem isNaN_mul {x y : Float} (hx : x.toModel.unpack ≠ .notANumber)
    {s : Sign} {m : Nat} {e : Int} {hpos : 0 < m} (hy : y.toModel.unpack = .finite s m e hpos) :
    (x * y).isNaN = false := by
  have hmul : x * y = .ofModel (.pack (UnpackedFloat.mul Format.binary64 x.toModel.unpack
    y.toModel.unpack)) := rfl
  rw [hmul, hy]
  refine isNaN_pack ?_
  cases hux : x.toModel.unpack with
  | notANumber => exact absurd hux hx
  | infinity t => exact nofun
  | zero t => exact nofun
  | finite t n f hn => exact roundWithAccuracy_ne_nan _ _ _ _

end Binary64

end FieldGrammar
