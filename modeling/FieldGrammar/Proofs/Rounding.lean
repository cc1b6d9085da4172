import Mathlib
import FieldGrammar.Proofs.ExactNumbers

/-!
# Rounding

The result of an operation on floating-point numbers is the exact result, rounded to the nearest
number of the format.  The model of floating-point arithmetic keeps a significand and two residual
bits for this; what these three stand for is a rational number (`Binary64.Represents`), and a
number that was rounded goes with the exact value that it was rounded from (`Binary64.IsRounded`).

For most purposes a bound on the error is enough: the rounded significand is one of the two
neighbours of the exact one, so the result is off by at most one in the last place.  The bound is
stated with a power of two above the exact magnitude.

## Main definitions

* `Binary64.Represents` — a significand with residual bits, and the number it stands for
* `Binary64.roundedSignificand` — what is left of a significand
* `Binary64.IsRounded` — a number is an exact value, rounded

## Main statements

* `Binary64.roundWithAccuracy_cases`, `Binary64.pack_round_cases` — rounding and packing
* `Binary64.IsRounded.error` — the error of rounding
-/

open Float.Model Float.Model.UnpackedFloat

namespace FieldGrammar

namespace Binary64

/-! ### Shifting and rounding -/

/-- A shift divides the significand by a power of two; the residual bits record what is lost. -/
theorem mantissa_shiftRight (em : ExtendedMantissa) (k : Nat) :
    (em >>> k).mantissa = em.mantissa / 2 ^ k := by
  have hshift : em >>> k = Nat.repeat ExtendedMantissa.shiftRightOne k em := rfl
  rw [hshift]
  induction k with
  | zero => rw [Nat.repeat, pow_zero, Nat.div_one]
  | succ k ih =>
      rw [Nat.repeat, ExtendedMantissa.shiftRightOne, ih rfl, Nat.div_div_eq_div_mul, pow_succ]

/-- Rounding leaves the significand or adds one. -/
theorem roundedMantissa_bounds (em : ExtendedMantissa) :
    em.mantissa ≤ em.roundedMantissa ∧ em.roundedMantissa ≤ em.mantissa + 1 := by
  obtain ⟨m, r, s⟩ := em
  cases r <;> cases s <;>
    simp only [ExtendedMantissa.roundedMantissa, ExtendedMantissa.accuracy,
      Accuracy.roundToNearestEven] <;> omega

/-- A comparison with a half says nothing of the significand. -/
theorem mantissa_ofMantissaAndAccuracy (m : Nat) (accuracy : Accuracy) :
    (ExtendedMantissa.ofMantissaAndAccuracy m accuracy).mantissa = m := by
  cases accuracy with
  | exact => rfl
  | inexact o => cases o <;> rfl

/-! ### What a significand with residual bits stands for -/

/-- The number that a significand with its two residual bits stands for, as far as they tell.  The
first bit is the next one behind the significand, and the second one says whether anything follows
it. -/
def Represents : ExtendedMantissa → ℚ → Prop
  | ⟨m, false, false⟩, x => x = m
  | ⟨m, false, true⟩, x => m < x ∧ x < m + 1 / 2
  | ⟨m, true, false⟩, x => x = m + 1 / 2
  | ⟨m, true, true⟩, x => m + 1 / 2 < x ∧ x < m + 1

/-- What is represented lies between the significand and the next one. -/
theorem Represents.bounds {em : ExtendedMantissa} {x : ℚ} (h : Represents em x) :
    em.mantissa ≤ x ∧ x < em.mantissa + 1 := by
  obtain ⟨m, r, s⟩ := em
  cases r <;> cases s <;> simp only [Represents] at h <;> constructor <;> linarith

/-- A shift halves the number: the bit shifted out takes the place of the round bit, which becomes
sticky. -/
theorem Represents.shiftRightOne {em : ExtendedMantissa} {x : ℚ} (h : Represents em x) :
    Represents em.shiftRightOne (x / 2) := by
  obtain ⟨m, r, s⟩ := em
  -- The last bit of the significand decides which half of the shifted one the number is in.
  obtain ⟨half, rfl | rfl⟩ := Nat.even_or_odd' m
  · have hshift : ExtendedMantissa.shiftRightOne ⟨2 * half, r, s⟩ = ⟨half, false, r || s⟩ := by
      simp [ExtendedMantissa.shiftRightOne]
    rw [hshift]
    cases r <;> cases s <;> simp only [Represents, Bool.or_false, Bool.or_true] at h ⊢ <;>
      push_cast at h <;> grind
  · have hshift : ExtendedMantissa.shiftRightOne ⟨2 * half + 1, r, s⟩ = ⟨half, true, r || s⟩ := by
      simp [ExtendedMantissa.shiftRightOne]
      omega
    rw [hshift]
    cases r <;> cases s <;> simp only [Represents, Bool.or_false, Bool.or_true] at h ⊢ <;>
      push_cast at h <;> grind

/-- A shift by several places is a shift by one, repeated. -/
theorem Represents.shiftRight {em : ExtendedMantissa} {x : ℚ} (h : Represents em x) (k : Nat) :
    Represents (em >>> k) (x / 2 ^ k) := by
  have hshift : em >>> k = Nat.repeat ExtendedMantissa.shiftRightOne k em := rfl
  rw [hshift]
  induction k with
  | zero => rwa [pow_zero, div_one]
  | succ k ih =>
      rw [Nat.repeat, pow_succ, ← div_div]
      exact (ih rfl).shiftRightOne

/-- The rounded significand is a nearest whole number, and of two the even one.  The two residual
bits decide, so they are enough to round by. -/
theorem Represents.rounded {em : ExtendedMantissa} {x : ℚ} (h : Represents em x) :
    |(em.roundedMantissa : ℚ) - x| ≤ 1 / 2 ∧
      (|(em.roundedMantissa : ℚ) - x| = 1 / 2 → em.roundedMantissa % 2 = 0) := by
  have hclose : |(em.roundedMantissa : ℚ) - x| < 1 / 2 →
      |(em.roundedMantissa : ℚ) - x| ≤ 1 / 2 ∧
        (|(em.roundedMantissa : ℚ) - x| = 1 / 2 → em.roundedMantissa % 2 = 0) :=
    fun hlt => ⟨hlt.le, fun heq => absurd heq hlt.ne⟩
  obtain ⟨m, r, s⟩ := em
  cases r <;> cases s <;>
    simp only [Represents, ExtendedMantissa.roundedMantissa, ExtendedMantissa.accuracy,
      Accuracy.roundToNearestEven] at h hclose ⊢
  · exact hclose (by rw [h]; norm_num)
  · exact hclose (abs_lt.2 ⟨by linarith, by linarith⟩)
  · rcases Nat.mod_two_eq_zero_or_one m with hodd | hodd
    · rw [hodd, h]
      exact ⟨by norm_num, fun _ => hodd⟩
    · rw [hodd, h]
      refine ⟨?_, fun _ => by omega⟩
      push_cast
      rw [abs_le]
      constructor <;> linarith
  · push_cast at hclose ⊢
    exact hclose (abs_lt.2 ⟨by linarith, by linarith⟩)

theorem represents_exact (m : Nat) :
    Represents (ExtendedMantissa.ofMantissaAndAccuracy m .exact) m :=
  rfl

/-- A quotient is represented by its whole part and its fraction compared with a half. -/
theorem represents_quotient (a : Nat) {n : Nat} (hn : 0 < n) :
    Represents (ExtendedMantissa.ofMantissaAndAccuracy (a / n) (accuracyOfFraction (a % n) n))
      (a / n : ℚ) := by
  have hn' : (0 : ℚ) < n := by exact_mod_cast hn
  have hlt : ((a % n : Nat) : ℚ) < n := by exact_mod_cast Nat.mod_lt a hn
  have hsplit : (a / n : ℚ) = (a / n : Nat) + (a % n : Nat) / n := by
    have hnat : (a : ℚ) = n * (a / n : Nat) + (a % n : Nat) := by
      exact_mod_cast (Nat.div_add_mod a n).symm
    rw [eq_comm, ← sub_eq_zero]
    field_simp
    linarith
  have hfraction : ((a % n : Nat) : ℚ) / n < 1 := (div_lt_one hn').2 hlt
  rw [hsplit, accuracyOfFraction]
  generalize a / n = whole
  generalize a % n = part at *
  split
  · next hzero =>
    rw [hzero, Nat.cast_zero, zero_div, add_zero]
    rfl
  · next hne =>
    have hpos : (0 : ℚ) < part / n := div_pos (by exact_mod_cast Nat.pos_of_ne_zero hne) hn'
    cases hcompare : compare (2 * part) n with
    | lt =>
        have hhalf : (part : ℚ) / n < 1 / 2 := by
          rw [div_lt_div_iff₀ hn' two_pos]
          exact_mod_cast (by linarith [compare_lt_iff_lt.1 hcompare] : part * 2 < 1 * n)
        exact ⟨by linarith, by linarith⟩
    | eq =>
        have hhalf : (part : ℚ) / n = 1 / 2 := by
          rw [div_eq_div_iff hn'.ne' two_ne_zero]
          exact_mod_cast (by linarith [compare_eq_iff_eq.1 hcompare] : part * 2 = 1 * n)
        show (whole : ℚ) + part / n = whole + 1 / 2
        rw [hhalf]
    | gt =>
        have hhalf : 1 / 2 < (part : ℚ) / n := by
          rw [div_lt_div_iff₀ two_pos hn']
          exact_mod_cast (by linarith [compare_gt_iff_gt.1 hcompare] : 1 * n < part * 2)
        exact ⟨by linarith, by linarith⟩

/-! ### Rounding to the format -/

/-- The exponent that a number is rounded to. -/
def roundingExponent (m : Nat) (e : Int) : Int :=
  max (m.log2 + e - 52) (-1074)

/-- The exponent that the model of floating-point arithmetic rounds to is the one given here by the
number of bits. -/
theorem targetExponent_eq (m : Nat) (e : Int) :
    Format.binary64.targetExponent (totalExponent m e) = roundingExponent m e := by
  rw [Format.targetExponent, totalExponent, roundingExponent,
    show Format.binary64.minExponent = -1074 from rfl,
    show Format.binary64.mantissaBits = 53 from rfl]
  congr 1
  push_cast
  ring

/-- A significand that already has the right exponent is not shifted. -/
theorem shiftToTargetExponent_of_le {m : Nat} {e : Int} (h : roundingExponent m e ≤ e) :
    shiftToTargetExponent Format.binary64 m e .exact = (⟨m, false, false⟩, e) := by
  rw [shiftToTargetExponent, targetExponent_eq, shiftToExponent,
    show (roundingExponent m e - e).toNat = 0 by omega]
  simp [ExtendedMantissa.ofMantissaAndAccuracy, HShiftRight.hShiftRight, Nat.repeat]

/-- A significand that was rounded up to one bit more is shifted once. -/
theorem shiftToTargetExponent_carry {e : Int} (h : -1074 ≤ e) :
    shiftToTargetExponent Format.binary64 (2 ^ 53) e .exact = (⟨2 ^ 52, false, false⟩, e + 1) := by
  have hround : roundingExponent (2 ^ 53) e = e + 1 := by
    rw [roundingExponent, Nat.log2_two_pow]
    omega
  rw [shiftToTargetExponent, targetExponent_eq, hround, shiftToExponent,
    show (e + 1 - e).toNat = 1 by omega]
  rfl

/-- A significand that fits is not rounded, as long as its exponent is not below the least one. -/
theorem roundingExponent_le {m : Nat} {e : Int} (hm : m < 2 ^ 53) (he : -1074 ≤ e) :
    roundingExponent m e ≤ e := by
  have hlog : m.log2 < 53 := by
    by_cases hzero : m = 0
    · rw [hzero]
      decide
    · exact (Nat.log2_lt hzero).2 hm
  rw [roundingExponent]
  omega

/-- What rounding leaves of a significand: it is shifted to the exponent that it is rounded to, and
a nearest whole number is taken. -/
def roundedSignificand (m : Nat) (e : Int) (accuracy : Accuracy) : Nat :=
  (ExtendedMantissa.ofMantissaAndAccuracy m accuracy >>>
    (roundingExponent m e - e).toNat).roundedMantissa

/-- **Rounding keeps the leading bits and adds at most one in the last place.** -/
theorem roundedSignificand_bounds (m : Nat) (e : Int) (accuracy : Accuracy) :
    m / 2 ^ (roundingExponent m e - e).toNat ≤ roundedSignificand m e accuracy ∧
      roundedSignificand m e accuracy ≤ m / 2 ^ (roundingExponent m e - e).toNat + 1 := by
  have hbounds := roundedMantissa_bounds (ExtendedMantissa.ofMantissaAndAccuracy m accuracy >>>
    (roundingExponent m e - e).toNat)
  rwa [mantissa_shiftRight, mantissa_ofMantissaAndAccuracy] at hbounds

/-- Rounding leaves no more bits than there is room for, or a power of two. -/
theorem roundedSignificand_le {m : Nat} {e : Int} (accuracy : Accuracy)
    (h : e ≤ roundingExponent m e) : roundedSignificand m e accuracy ≤ 2 ^ 53 := by
  have hfloor : m / 2 ^ (roundingExponent m e - e).toNat < 2 ^ 53 := by
    rw [Nat.div_lt_iff_lt_mul (Nat.two_pow_pos _), ← pow_add]
    refine Nat.lt_log2_self.trans_le (Nat.pow_le_pow_right (by decide) ?_)
    rw [roundingExponent] at h ⊢
    omega
  have hbounds := roundedSignificand_bounds m e accuracy
  omega

/-- Rounding above the least exponent leaves enough bits for a normal number. -/
theorem le_roundedSignificand {m : Nat} {e : Int} (accuracy : Accuracy)
    (hshift : 52 ≤ m.log2 ∨ e ≤ -1074) (ht : roundingExponent m e ≠ -1074) :
    2 ^ 52 ≤ roundedSignificand m e accuracy := by
  have hlog : 52 ≤ m.log2 := by
    rw [roundingExponent] at ht
    omega
  have hm : m ≠ 0 := by
    rintro rfl
    simp at hlog
  refine le_trans ?_ (roundedSignificand_bounds m e accuracy).1
  rw [Nat.le_div_iff_mul_le (Nat.two_pow_pos _), ← pow_add]
  refine le_trans (Nat.pow_le_pow_right (by decide) ?_) (Nat.log2_self_le hm)
  rw [roundingExponent] at ht ⊢
  omega

/-- **What a number is rounded to.**  A significand that was rounded up to one bit more is a power
of two, and goes with the next exponent.  So what is rounded is canonical in either case. -/
theorem roundWithAccuracy_cases (s : Sign) {m : Nat} {e : Int} (accuracy : Accuracy)
    (h : e ≤ roundingExponent m e) :
    (roundedSignificand m e accuracy = 0 ∧
        roundWithAccuracy Format.binary64 s m e accuracy = .zero s) ∨
      (roundedSignificand m e accuracy < 2 ^ 53 ∧
        ∃ hpos, roundWithAccuracy Format.binary64 s m e accuracy =
          .finite s (roundedSignificand m e accuracy) (roundingExponent m e) hpos) ∨
      (roundedSignificand m e accuracy = 2 ^ 53 ∧
        ∃ hpos, roundWithAccuracy Format.binary64 s m e accuracy =
          .finite s (2 ^ 52) (roundingExponent m e + 1) hpos) := by
  have hmin : -1074 ≤ roundingExponent m e := le_max_right _ _
  have hle := roundedSignificand_le accuracy h
  have hfirst : shiftToTargetExponent Format.binary64 m e accuracy =
      (ExtendedMantissa.ofMantissaAndAccuracy m accuracy >>> (roundingExponent m e - e).toNat,
        roundingExponent m e) := by
    rw [shiftToTargetExponent, targetExponent_eq, shiftToExponent]
    rw [show e + ((roundingExponent m e - e).toNat : Int) = roundingExponent m e by omega]
  rw [roundWithAccuracy, hfirst]
  dsimp only
  rw [← roundedSignificand]
  rcases Nat.lt_or_ge (roundedSignificand m e accuracy) (2 ^ 53) with hlt | hge
  · rw [shiftToTargetExponent_of_le (roundingExponent_le hlt hmin)]
    dsimp only
    by_cases hzero : roundedSignificand m e accuracy = 0
    · exact .inl ⟨hzero, dif_pos hzero⟩
    · exact .inr (.inl ⟨hlt, Nat.pos_of_ne_zero hzero, dif_neg hzero⟩)
  · have heq : roundedSignificand m e accuracy = 2 ^ 53 := by omega
    rw [heq, shiftToTargetExponent_carry hmin]
    exact .inr (.inr ⟨rfl, by decide, dif_neg (show (2 : Nat) ^ 52 ≠ 0 by decide)⟩)

theorem hasValue_pack_zero (s : Sign) : HasValue (.ofModel (.pack (.zero s))) 0 :=
  hasValue_of_unpack_zero (unpack_pack_zero s)

theorem hasValue_pack_finite {s : Sign} {m : Nat} {e : Int} (hpos : 0 < m) (h : Canonical m e) :
    HasValue (.ofModel (.pack (.finite s m e hpos))) (s.apply m * 2 ^ e) :=
  hasValue_of_unpack_finite (unpack_pack_finite hpos h)

/-- An exponent above the greatest one is packed as infinity. -/
theorem unpack_pack_overflow {s : Sign} {m : Nat} {e : Int} (hpos : 0 < m) (h : 971 < e) :
    (Float.Model.pack (.finite s m e hpos)).unpack = .infinity s := by
  have hpack : Float.Model.pack (.finite s m e hpos) = Float.Model.pack (.infinity s) := by
    rw [Float.Model.pack, Float.Model.pack]
    congr 2
    rw [UnpackedFloat.pack, UnpackedFloat.pack, if_pos]
    show 2 ^ 11 ≤ (e + (1023 : Nat) + (52 : Nat)).toNat + 1
    omega
  rw [hpack, unpack_pack_infinity]

/-- **A rounded number has the value of the rounded significand**, unless the value is beyond all
finite numbers.  What is packed is then an infinity. -/
theorem pack_round_cases (s : Sign) {m : Nat} {e : Int} (accuracy : Accuracy)
    (hshift : 52 ≤ m.log2 ∨ e ≤ -1074) :
    HasValue (.ofModel (.pack (roundWithAccuracy Format.binary64 s m e accuracy)))
        (s.apply (roundedSignificand m e accuracy) * 2 ^ roundingExponent m e) ∨
      ((Float.Model.pack (roundWithAccuracy Format.binary64 s m e accuracy)).unpack =
          .infinity s ∧
        (2 : ℚ) ^ (1024 : Int) ≤ roundedSignificand m e accuracy * 2 ^ roundingExponent m e) := by
  have hexp : e ≤ roundingExponent m e := by
    rw [roundingExponent]
    omega
  have hmin : -1074 ≤ roundingExponent m e := le_max_right _ _
  have hnormal := le_roundedSignificand accuracy hshift
  have hround := roundWithAccuracy_cases s accuracy hexp
  generalize roundingExponent m e = t at *
  generalize roundedSignificand m e accuracy = r at *
  rcases hround with ⟨rfl, hzero⟩ | ⟨hlt, hpos, hfinite⟩ | ⟨rfl, hpos, hcarry⟩
  · rw [hzero]
    have hvalue := hasValue_pack_zero s
    left
    cases s <;> simpa [Sign.apply] using hvalue
  · rw [hfinite]
    by_cases hmax : t ≤ 971
    · exact .inl (hasValue_pack_finite hpos ⟨hlt, hmin, hmax, by omega⟩)
    · refine .inr ⟨unpack_pack_overflow hpos (by omega), ?_⟩
      have hr : (2 : ℚ) ^ (52 : Int) ≤ r := by exact_mod_cast hnormal (by omega)
      calc (2 : ℚ) ^ (1024 : Int) ≤ 2 ^ (52 + t) := zpow_le_zpow_right₀ (by norm_num) (by omega)
        _ = 2 ^ (52 : Int) * 2 ^ t := zpow_add₀ (by norm_num) _ _
        _ ≤ r * 2 ^ t := mul_le_mul_of_nonneg_right hr (zpow_pos (by norm_num) t).le
  · -- A carry doubles the unit and halves the significand.
    rw [hcarry]
    have heq : (2 : ℚ) ^ 52 * 2 ^ (t + 1) = 2 ^ 53 * 2 ^ t := by
      rw [zpow_add_one₀ (by norm_num)]
      ring
    by_cases hmax : t + 1 ≤ 971
    · left
      have hvalue := hasValue_pack_finite (s := s) hpos
        (e := t + 1) ⟨by decide, by omega, hmax, .inl le_rfl⟩
      convert hvalue using 1
      cases s <;> simp only [Sign.apply] <;> push_cast <;> linarith [heq]
    · refine .inr ⟨unpack_pack_overflow hpos (by omega), ?_⟩
      rw [Nat.cast_pow, Nat.cast_ofNat, ← heq]
      calc (2 : ℚ) ^ (1024 : Int) ≤ 2 ^ (52 + (t + 1)) :=
            zpow_le_zpow_right₀ (by norm_num) (by omega)
        _ = 2 ^ 52 * 2 ^ (t + 1) := by
            rw [zpow_add₀ (by norm_num)]
            rfl

/-- A number that is rounded to an exponent below the greatest has a value. -/
theorem hasValue_pack_round (s : Sign) {m : Nat} {e : Int} (accuracy : Accuracy)
    (hshift : 52 ≤ m.log2 ∨ e ≤ -1074) (hmax : roundingExponent m e ≤ 970) :
    HasValue (.ofModel (.pack (roundWithAccuracy Format.binary64 s m e accuracy)))
      (s.apply (roundedSignificand m e accuracy) * 2 ^ roundingExponent m e) := by
  have hexp : e ≤ roundingExponent m e := by
    rw [roundingExponent]
    omega
  rcases pack_round_cases s accuracy hshift with hvalue | ⟨-, hbig⟩
  · exact hvalue
  · have hle : (roundedSignificand m e accuracy : ℚ) ≤ 2 ^ (53 : Int) := by
      exact_mod_cast roundedSignificand_le accuracy hexp
    have hsmall :
        (roundedSignificand m e accuracy : ℚ) * 2 ^ roundingExponent m e < 2 ^ (1024 : Int) :=
      calc (roundedSignificand m e accuracy : ℚ) * 2 ^ roundingExponent m e
          ≤ 2 ^ (53 : Int) * 2 ^ roundingExponent m e :=
            mul_le_mul_of_nonneg_right hle (zpow_pos (by norm_num) _).le
        _ = 2 ^ (53 + roundingExponent m e) := (zpow_add₀ (by norm_num) _ _).symm
        _ < 2 ^ (1024 : Int) := zpow_lt_zpow_right₀ (by norm_num) (by omega)
    exact absurd hbig (not_le.2 hsmall)

/-! ### The error of rounding -/

/-- The numerical value of a sign. -/
def signValue : Sign → ℚ
  | .negative => -1
  | .positive => 1

theorem apply_eq (s : Sign) (n : Int) : (s.apply n : ℚ) = signValue s * n := by
  cases s <;> simp [Sign.apply, signValue]

theorem abs_signValue (s : Sign) : |signValue s| = 1 := by
  cases s <;> simp [signValue]

theorem abs_signValue_mul (s : Sign) (q : ℚ) : |signValue s * q| = |q| := by
  rw [abs_mul, abs_signValue, one_mul]

theorem signValue_mul (s t : Sign) : signValue (s * t) = signValue s * signValue t := by
  cases s <;> cases t
  · exact (by norm_num : (1 : ℚ) = -1 * -1)
  · exact (by norm_num : (-1 : ℚ) = -1 * 1)
  · exact (by norm_num : (-1 : ℚ) = 1 * -1)
  · exact (by norm_num : (1 : ℚ) = 1 * 1)

theorem signValue_div (s t : Sign) : signValue (s / t) = signValue s / signValue t := by
  cases s <;> cases t
  · exact (by norm_num : (1 : ℚ) = -1 / -1)
  · exact (by norm_num : (-1 : ℚ) = -1 / 1)
  · exact (by norm_num : (-1 : ℚ) = 1 / -1)
  · exact (by norm_num : (1 : ℚ) = 1 / 1)

/-- A magnitude of `m` and a fraction, shifted and rounded, is off by less than the last place. -/
theorem abs_shifted_sub_le {m k r : Nat} {q : ℚ} (hlow : m / 2 ^ k ≤ r) (hhigh : r ≤ m / 2 ^ k + 1)
    (hq : m ≤ q) (hq' : q < m + 1) : |(r : ℚ) * 2 ^ k - q| ≤ 2 ^ k := by
  have hfloor : m / 2 ^ k * 2 ^ k ≤ m := Nat.div_mul_le_self m (2 ^ k)
  have hceil : m + 1 ≤ (m / 2 ^ k + 1) * 2 ^ k :=
    (Nat.lt_div_mul_add (Nat.two_pow_pos k)).trans_eq (by ring)
  have h1 : (r : ℚ) * 2 ^ k ≤ m + 2 ^ k := by
    have hnat : r * 2 ^ k ≤ m + 2 ^ k := by nlinarith [Nat.two_pow_pos k]
    exact_mod_cast hnat
  have h2 : (m : ℚ) + 1 ≤ r * 2 ^ k + 2 ^ k := by
    have hnat : m + 1 ≤ r * 2 ^ k + 2 ^ k := by nlinarith [Nat.two_pow_pos k]
    exact_mod_cast hnat
  rw [abs_le]
  constructor <;> linarith

/-- **Rounding is off by at most one in the last place.**  The magnitude is `q` units of the
exponent, of which the significand holds the whole part. -/
theorem hasValue_round_error (s : Sign) {m : Nat} {e : Int} (accuracy : Accuracy) {q : ℚ} {N : Int}
    (hshift : 52 ≤ m.log2 ∨ e ≤ -1074) (hq : m ≤ q) (hq' : q < m + 1)
    (hN : -1022 ≤ N) (hN' : N ≤ 1022) (hbound : q * 2 ^ e ≤ 2 ^ N) :
    ∃ v, HasValue (.ofModel (.pack (roundWithAccuracy Format.binary64 s m e accuracy))) v ∧
      |v - signValue s * (q * 2 ^ e)| ≤ 2 ^ (N - 52) := by
  have htwo : (0 : ℚ) < 2 ^ e := zpow_pos (by norm_num) e
  -- The bound on the magnitude bounds the exponent that it is rounded to.
  have hexp : roundingExponent m e ≤ N - 52 := by
    have hlog : (m.log2 : Int) + e ≤ N ∨ e ≤ -1074 ∧ m = 0 := by
      by_cases hm : m = 0
      · rcases hshift with hlog | he
        · rw [hm] at hlog
          simp at hlog
        · exact .inr ⟨he, hm⟩
      · left
        have hle : (2 : ℚ) ^ (m.log2 : Int) ≤ m := by
          rw [zpow_natCast]
          exact_mod_cast Nat.log2_self_le hm
        have hpow : (2 : ℚ) ^ ((m.log2 : Int) + e) ≤ 2 ^ N := by
          rw [zpow_add₀ (by norm_num)]
          exact (mul_le_mul_of_nonneg_right (hle.trans hq) htwo.le).trans hbound
        exact (zpow_le_zpow_iff_right₀ (by norm_num)).1 hpow
    rw [roundingExponent]
    rcases hlog with hlog | ⟨he, rfl⟩
    · omega
    · simp only [Nat.log2_zero]
      omega
  refine ⟨_, hasValue_pack_round s accuracy hshift (by omega), ?_⟩
  have hle : e ≤ roundingExponent m e := by
    rw [roundingExponent]
    omega
  obtain ⟨hlow, hhigh⟩ := roundedSignificand_bounds m e accuracy
  generalize roundedSignificand m e accuracy = r at *
  generalize roundingExponent m e = t at *
  -- In units of the old exponent the error is less than one unit of the new one.
  have herror := abs_shifted_sub_le hlow hhigh hq hq'
  have ht : (2 : ℚ) ^ t = 2 ^ ((t - e).toNat) * 2 ^ e := by
    rw [← zpow_natCast, ← zpow_add₀ (by norm_num)]
    congr 1
    omega
  rw [apply_eq, Int.cast_natCast]
  calc |signValue s * r * 2 ^ t - signValue s * (q * 2 ^ e)|
      = |signValue s| * |(r : ℚ) * 2 ^ (t - e).toNat - q| * |(2 : ℚ) ^ e| := by
        rw [← abs_mul, ← abs_mul, ht]
        congr 1
        ring
    _ ≤ 2 ^ (t - e).toNat * 2 ^ e := by
        rw [abs_signValue, one_mul, abs_of_pos htwo]
        exact mul_le_mul_of_nonneg_right herror htwo.le
    _ = 2 ^ t := ht.symm
    _ ≤ 2 ^ (N - 52) := zpow_le_zpow_right₀ (by norm_num) hexp

/-- The number is what this exact value is rounded to: zero, or a magnitude in units of an exponent,
of which a significand holds the whole part.  Products, quotients and converted integers are all of
this form. -/
inductive IsRounded : Float → ℚ → Prop
  | zero (s : Sign) : IsRounded (.ofModel (.pack (.zero s))) 0
  | round (s : Sign) {m : Nat} {e : Int} {accuracy : Accuracy} {x : ℚ}
      (hshift : 52 ≤ m.log2 ∨ e ≤ -1074)
      (hx : Represents (.ofMantissaAndAccuracy m accuracy) x) :
      IsRounded (.ofModel (.pack (roundWithAccuracy Format.binary64 s m e accuracy)))
        (signValue s * (x * 2 ^ e))

/-- A rounded number is off by at most one in the last place. -/
theorem IsRounded.error {z : Float} {p : ℚ} (h : IsRounded z p) {N : Int} (hN : -1022 ≤ N)
    (hN' : N ≤ 1022) (hbound : |p| ≤ 2 ^ N) : ∃ v, HasValue z v ∧ |v - p| ≤ 2 ^ (N - 52) := by
  cases h with
  | zero s =>
      refine ⟨0, hasValue_pack_zero s, ?_⟩
      rw [sub_self, abs_zero]
      exact (zpow_pos (by norm_num) _).le
  | round s hshift hx =>
      obtain ⟨hlow, hhigh⟩ := hx.bounds
      rw [mantissa_ofMantissaAndAccuracy] at hlow hhigh
      rw [abs_signValue_mul] at hbound
      exact hasValue_round_error s _ hshift hlow hhigh hN hN' ((le_abs_self _).trans hbound)

end Binary64

end FieldGrammar
