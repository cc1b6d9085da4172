import Mathlib
import FieldGrammar.Proofs.RoundedOperations

/-!
# The order of numbers

Finite numbers are in the order of their values, and nothing that a fixed-point grid does to them
puts them out of order: rounding to the format keeps it, since a greater magnitude never has a
smaller unit and the nearest multiples of one unit are in the order of what they are nearest to,
and so does the nearest integer, with its limits in place of what lies beyond 64 bits.

A tie between two numbers of the format is part of the argument.  Two exact values may be equal,
and then they have to be rounded alike, which is what the rule for ties is for.

## Main definitions

* `Binary64.IsUnit` — the unit that a magnitude is rounded to multiples of
* `Binary64.Nearest` — a multiple of the unit nearest to a value
* `Binary64.roundAway` — the nearest integer to a rational number, halves away from zero

## Main statements

* `Binary64.compare_eq`, `Binary64.lt_iff`, `Binary64.le_iff` — numbers are compared by their values
* `Binary64.Nearest.mono` — rounding keeps the order
* `Binary64.nearestInt64_mono` — and so does the nearest integer of what was rounded
-/

open Float.Model Float.Model.UnpackedFloat

namespace FieldGrammar

namespace Binary64

/-! ### Comparing values -/

/-- The magnitudes with one unit end where those of normal numbers with a greater one begin. -/
theorem two_pow_mul_le {n : Nat} {t t' : Int} (hn : 2 ^ 52 ≤ n) (h : t < t') :
    (2 : ℚ) ^ 53 * 2 ^ t ≤ n * 2 ^ t' := by
  have hn' : (2 : ℚ) ^ (52 : Int) ≤ n := by exact_mod_cast hn
  calc (2 : ℚ) ^ 53 * 2 ^ t = 2 ^ (53 + t) := by
        rw [zpow_add₀ (by norm_num)]
        rfl
    _ ≤ 2 ^ (52 + t') := zpow_le_zpow_right₀ (by norm_num) (by omega)
    _ = 2 ^ (52 : Int) * 2 ^ t' := zpow_add₀ (by norm_num) _ _
    _ ≤ n * 2 ^ t' := mul_le_mul_of_nonneg_right hn' (zpow_pos (by norm_num) t').le

/-- A canonical number is less than every one with a greater exponent. -/
theorem Canonical.lt_of_exponent_lt {m n : Nat} {e f : Int} (hm : Canonical m e)
    (hn : Canonical n f) (h : e < f) : (m : ℚ) * 2 ^ e < n * 2 ^ f := by
  have hmin := hm.minExponent
  have hlt : (m : ℚ) < 2 ^ 53 := by exact_mod_cast hm.lt
  exact (mul_lt_mul_of_pos_right hlt (zpow_pos (by norm_num) e)).trans_le
    (two_pow_mul_le (hn.normal.resolve_right (by omega)) h)

/-- Magnitudes of canonical numbers are compared by the exponent first.  A greater exponent comes
with a significand that uses all bits, so it outweighs any significand at a smaller one. -/
theorem Canonical.compare_eq {m n : Nat} {e f : Int} (hm : Canonical m e) (hn : Canonical n f) :
    compare ((m : ℚ) * 2 ^ e) (n * 2 ^ f) = (compare e f).then (compare m n) := by
  rcases lt_trichotomy e f with h | rfl | h
  · rw [compare_lt_iff_lt.2 h, compare_lt_iff_lt.2 (hm.lt_of_exponent_lt hn h)]
    rfl
  · have hpos : (0 : ℚ) < 2 ^ e := zpow_pos (by norm_num) e
    rw [compare_eq_iff_eq.2 (rfl : e = e)]
    rcases lt_trichotomy m n with h | rfl | h
    · rw [compare_lt_iff_lt.2 h, compare_lt_iff_lt.2]
      · rfl
      · exact mul_lt_mul_of_pos_right (by exact_mod_cast h) hpos
    · rw [compare_eq_iff_eq.2 (rfl : m = m), compare_eq_iff_eq.2 rfl]
      rfl
    · rw [compare_gt_iff_gt.2 h, compare_gt_iff_gt.2]
      · rfl
      · exact mul_lt_mul_of_pos_right (by exact_mod_cast h) hpos
  · rw [compare_gt_iff_gt.2 h, compare_gt_iff_gt.2 (hn.lt_of_exponent_lt hm h)]
    rfl

private theorem compare_neg_neg (a b : ℚ) : compare (-a) (-b) = (compare a b).swap := by
  rcases lt_trichotomy a b with h | rfl | h
  · rw [compare_lt_iff_lt.2 h, compare_gt_iff_gt.2 (neg_lt_neg h)]
    rfl
  · rw [compare_eq_iff_eq.2 (rfl : a = a), compare_eq_iff_eq.2 rfl]
    rfl
  · rw [compare_gt_iff_gt.2 h, compare_lt_iff_lt.2 (neg_lt_neg h)]
    rfl

/-- **Numbers are compared by their values.**  The comparison goes by sign, exponent and
significand, and never forms the value. -/
theorem compare_eq {x y : Float} {p q : ℚ} (hx : HasValue x p) (hy : HasValue y q) :
    x.toModel.unpack.compare y.toModel.unpack = some (compare p q) := by
  have hpositive : ∀ {n : Nat} {f : Int}, 0 < n → (0 : ℚ) < n * 2 ^ f := fun hn =>
    mul_pos (by exact_mod_cast hn) (zpow_pos (by norm_num) _)
  have hnegative : ∀ (n : Nat) (f : Int), (((-n : Int) : ℚ)) * 2 ^ f = -(n * 2 ^ f) := by
    intro n f
    push_cast
    ring
  rcases unpack_of_hasValue hx with ⟨rfl, s, hux⟩ | ⟨s, m, e, hm, hux, hcx, rfl⟩ <;>
    rcases unpack_of_hasValue hy with ⟨rfl, t, huy⟩ | ⟨t, n, f, hn, huy, hcy, rfl⟩ <;>
    rw [hux, huy]
  · rfl
  · cases t <;> simp only [Sign.apply, hnegative, Int.cast_natCast]
    · rw [compare_gt_iff_gt.2 (neg_neg_of_pos (hpositive hn))]
      rfl
    · rw [compare_lt_iff_lt.2 (hpositive hn)]
      rfl
  · cases s <;> simp only [Sign.apply, hnegative, Int.cast_natCast]
    · rw [compare_lt_iff_lt.2 (neg_neg_of_pos (hpositive hm))]
      rfl
    · rw [compare_gt_iff_gt.2 (hpositive hm)]
      rfl
  · cases s <;> cases t <;> simp only [Sign.apply, hnegative, Int.cast_natCast]
    · rw [compare_neg_neg, hcx.compare_eq hcy]
      rfl
    · rw [compare_lt_iff_lt.2 ((neg_neg_of_pos (hpositive hm)).trans (hpositive hn))]
      rfl
    · rw [compare_gt_iff_gt.2 ((neg_neg_of_pos (hpositive hn)).trans (hpositive hm))]
      rfl
    · rw [hcx.compare_eq hcy]
      rfl

/-- Finite numbers are compared by their values; the sign of a zero does not count. -/
theorem lt_iff {x y : Float} {p q : ℚ} (hx : HasValue x p) (hy : HasValue y q) :
    x < y ↔ p < q := by
  rw [lt_iff_unpack, compare_eq hx hy, Option.some.injEq, compare_lt_iff_lt]

theorem le_iff {x y : Float} {p q : ℚ} (hx : HasValue x p) (hy : HasValue y q) :
    x ≤ y ↔ p ≤ q := by
  rw [le_iff_unpack, compare_eq hx hy, Option.any_some, ← Ordering.ne_gt_iff_isLE]
  exact compare_le_iff_le

/-- A number that is not less has no smaller value. -/
theorem le_of_not_lt {x y : Float} {p q : ℚ} (hx : HasValue x p) (hy : HasValue y q)
    (h : ¬y < x) : p ≤ q :=
  not_lt.1 fun hlt => h ((lt_iff hy hx).2 hlt)

/-- Among finite numbers, one that is not less is greater or equal. -/
theorem not_lt_iff {x y : Float} (hx : x.isFinite = true) (hy : y.isFinite = true) :
    ¬y < x ↔ x ≤ y := by
  obtain ⟨p, hp⟩ := isFinite_iff.1 hx
  obtain ⟨q, hq⟩ := isFinite_iff.1 hy
  rw [lt_iff hq hp, le_iff hp hq, not_lt]

/-- Among finite numbers, one that is not less or equal is greater. -/
theorem not_le_iff {x y : Float} (hx : x.isFinite = true) (hy : y.isFinite = true) :
    ¬y ≤ x ↔ x < y := by
  obtain ⟨p, hp⟩ := isFinite_iff.1 hx
  obtain ⟨q, hq⟩ := isFinite_iff.1 hy
  rw [le_iff hq hp, lt_iff hp hq, not_le]

/-- Equal numbers have one value. -/
theorem eq_of_beq {x y : Float} {p q : ℚ} (hx : HasValue x p) (hy : HasValue y q)
    (h : (x == y) = true) : p = q := by
  rw [beq_iff_unpack, compare_eq hx hy, Option.some.injEq, compare_eq_iff_eq] at h
  exact h

/-! ### Nearest multiples of a unit -/

/-- The unit that the magnitude is rounded to multiples of: the greatest power of two that leaves
the magnitude 53 bits, but none below the least exponent. -/
structure IsUnit (q : ℚ) (t : Int) : Prop where
  lt : q < 2 ^ 53 * 2 ^ t
  minExponent : -1074 ≤ t
  normal : t = -1074 ∨ 2 ^ 52 * 2 ^ t ≤ q

/-- A multiple of the unit that is nearest to the magnitude, and the even one of two.  The unit
grows with the magnitude. -/
def NearestMagnitude (q w : ℚ) : Prop :=
  ∃ (t : Int) (r : Nat), IsUnit q t ∧ w = r * 2 ^ t ∧ |(r : ℚ) - q / 2 ^ t| ≤ 1 / 2 ∧
    (|(r : ℚ) - q / 2 ^ t| = 1 / 2 → r % 2 = 0)

/-- A greater magnitude has no smaller unit. -/
theorem IsUnit.mono {q q' : ℚ} {t t' : Int} (h : IsUnit q t) (h' : IsUnit q' t') (hle : q ≤ q') :
    t ≤ t' := by
  by_contra hlt
  have hmin := h'.minExponent
  have hnormal : 2 ^ 52 * 2 ^ t ≤ q := h.normal.resolve_left (by omega)
  have hpow : (2 : ℚ) ^ (t' + 1) ≤ 2 ^ t := zpow_le_zpow_right₀ (by norm_num) (by omega)
  rw [zpow_add_one₀ (by norm_num)] at hpow
  linarith [h'.lt]

/-- A nearest multiple is at most the unit times the power of two above the significands. -/
theorem IsUnit.nearest_le {q : ℚ} {t : Int} (h : IsUnit q t) {r : Nat}
    (hnear : |(r : ℚ) - q / 2 ^ t| ≤ 1 / 2) : r ≤ 2 ^ 53 := by
  by_contra hgt
  have hr : (2 : ℚ) ^ 53 + 1 ≤ r := by exact_mod_cast not_le.1 hgt
  have hlt : q / 2 ^ t < 2 ^ 53 := (div_lt_iff₀ (zpow_pos (by norm_num) t)).2 h.lt
  linarith [(abs_le.1 hnear).2]

/-- Above the least exponent, a nearest multiple is that of a normal number. -/
theorem IsUnit.le_nearest {q : ℚ} {t : Int} (h : IsUnit q t) (ht : t ≠ -1074) {r : Nat}
    (hnear : |(r : ℚ) - q / 2 ^ t| ≤ 1 / 2) : 2 ^ 52 ≤ r := by
  by_contra hlt
  have hr : (r : ℚ) + 1 ≤ 2 ^ 52 := by exact_mod_cast not_le.1 hlt
  have hge : 2 ^ 52 ≤ q / 2 ^ t :=
    (le_div_iff₀ (zpow_pos (by norm_num) t)).2 (h.normal.resolve_left ht)
  linarith [(abs_le.1 hnear).1]

/-- **The nearest multiples are in the order of what they are nearest to.**  In one unit this is the
order of nearest integers; between two, a power of two lies in between and is a multiple of both. -/
theorem NearestMagnitude.mono {q q' w w' : ℚ} (h : NearestMagnitude q w)
    (h' : NearestMagnitude q' w') (hle : q ≤ q') : w ≤ w' := by
  obtain ⟨t, r, hunit, rfl, hnear, htie⟩ := h
  obtain ⟨t', r', hunit', rfl, hnear', htie'⟩ := h'
  have hpos : (0 : ℚ) < 2 ^ t := zpow_pos (by norm_num) t
  rcases (hunit.mono hunit' hle).eq_or_lt with rfl | hlt
  · -- Neighbours out of order would be the two choices of one tie, and only one of them is even.
    have hdiv : q / 2 ^ t ≤ q' / 2 ^ t := div_le_div_of_nonneg_right hle hpos.le
    refine mul_le_mul_of_nonneg_right ?_ hpos.le
    by_contra hgt
    have hsucc : (r' : ℚ) + 1 ≤ r := by
      have hnat : r' < r := by exact_mod_cast not_le.1 hgt
      exact_mod_cast hnat
    have hupper := (abs_le.1 hnear).2
    have hlower := (abs_le.1 hnear').1
    have heven := htie (by rw [abs_of_nonneg] <;> linarith)
    have heven' := htie' (by rw [abs_of_nonpos] <;> linarith)
    have heq : r = r' + 1 := by
      have hcast : (r : ℚ) = r' + 1 := by linarith
      exact_mod_cast hcast
    omega
  · -- A power of two lies between numbers with different units, and rounding does not cross it.
    have hmin := hunit.minExponent
    have hr : (r : ℚ) ≤ 2 ^ 53 := by exact_mod_cast hunit.nearest_le hnear
    exact (mul_le_mul_of_nonneg_right hr hpos.le).trans
      (two_pow_mul_le (hunit'.le_nearest (by omega) hnear') hlt)

theorem NearestMagnitude.nonneg {q w : ℚ} (h : NearestMagnitude q w) : 0 ≤ w := by
  obtain ⟨t, r, -, rfl, -⟩ := h
  positivity

theorem nearestMagnitude_zero : NearestMagnitude 0 0 :=
  ⟨-1074, 0, ⟨by positivity, le_rfl, .inl rfl⟩, by simp, by norm_num, fun _ => rfl⟩

theorem NearestMagnitude.eq_zero {w : ℚ} (h : NearestMagnitude 0 w) : w = 0 :=
  le_antisymm (h.mono nearestMagnitude_zero le_rfl) h.nonneg

/-- A sign is its own inverse, so it may be taken to the other side. -/
theorem signValue_mul_self (s : Sign) : signValue s * signValue s = 1 := by
  cases s <;> norm_num [signValue]

/-- A value and what is nearest to it have one sign, and magnitudes that are nearest. -/
def Nearest (p v : ℚ) : Prop :=
  ∃ s q w, 0 ≤ q ∧ NearestMagnitude q w ∧ p = signValue s * q ∧ v = signValue s * w

theorem nearest_zero : Nearest 0 0 :=
  ⟨.positive, 0, 0, le_rfl, nearestMagnitude_zero, by simp, by simp⟩

/-- **Rounding keeps the order.**  Between magnitudes of one sign this is `NearestMagnitude.mono`;
between opposite signs zero lies in between. -/
theorem Nearest.mono {p p' v v' : ℚ} (h : Nearest p v) (h' : Nearest p' v') (hle : p ≤ p') :
    v ≤ v' := by
  obtain ⟨s, q, w, hq, hnear, rfl, rfl⟩ := h
  obtain ⟨s', q', w', hq', hnear', rfl, rfl⟩ := h'
  have hw := hnear.nonneg
  have hw' := hnear'.nonneg
  -- Opposite signs leave only the order of the signs, or two zeros.
  cases s <;> cases s' <;> simp only [signValue, one_mul, neg_mul] at hle ⊢
  · exact neg_le_neg (hnear'.mono hnear (neg_le_neg_iff.1 hle))
  · linarith
  · obtain rfl : q = 0 := by linarith
    obtain rfl : q' = 0 := by linarith
    rw [hnear.eq_zero, hnear'.eq_zero, neg_zero]
  · exact hnear.mono hnear' hle

/-! ### What a number was rounded to -/

/-- A number is rounded to multiples of its unit. -/
theorem isUnit_roundingExponent {m : Nat} {e : Int} {x : ℚ} (hshift : 52 ≤ m.log2 ∨ e ≤ -1074)
    (hlow : m ≤ x) (hhigh : x < m + 1) : IsUnit (x * 2 ^ e) (roundingExponent m e) := by
  have hpos : (0 : ℚ) < 2 ^ e := zpow_pos (by norm_num) e
  refine ⟨?_, le_max_right _ _, ?_⟩
  -- From above: the magnitude has at most as many bits as its significand.
  · have hsucc : (m : ℚ) + 1 ≤ 2 ^ ((m.log2 + 1 : Nat) : Int) := by
      rw [zpow_natCast]
      exact_mod_cast Nat.succ_le_of_lt (Nat.lt_log2_self (n := m))
    calc x * 2 ^ e < 2 ^ ((m.log2 + 1 : Nat) : Int) * 2 ^ e :=
          mul_lt_mul_of_pos_right (hhigh.trans_le hsucc) hpos
      _ = 2 ^ (((m.log2 + 1 : Nat) : Int) + e) := (zpow_add₀ (by norm_num) _ _).symm
      _ ≤ 2 ^ (53 + roundingExponent m e) := by
          refine zpow_le_zpow_right₀ (by norm_num) ?_
          rw [roundingExponent]
          omega
      _ = 2 ^ 53 * 2 ^ roundingExponent m e := by
          rw [zpow_add₀ (by norm_num)]
          rfl
  -- From below: unless the exponent is the least one, all bits are in use.
  · by_cases ht : roundingExponent m e = -1074
    · exact .inl ht
    · right
      have hm : m ≠ 0 := by
        rintro rfl
        rw [roundingExponent] at ht
        simp only [Nat.log2_zero] at ht hshift
        omega
      have hlog : (2 : ℚ) ^ (m.log2 : Int) ≤ x := by
        refine le_trans ?_ hlow
        rw [zpow_natCast]
        exact_mod_cast Nat.log2_self_le hm
      calc (2 : ℚ) ^ 52 * 2 ^ roundingExponent m e
          = 2 ^ (52 + roundingExponent m e) := by
            rw [zpow_add₀ (by norm_num)]
            rfl
        _ = 2 ^ ((m.log2 : Int) + e) := by
            congr 1
            rw [roundingExponent] at ht ⊢
            omega
        _ = 2 ^ (m.log2 : Int) * 2 ^ e := zpow_add₀ (by norm_num) _ _
        _ ≤ x * 2 ^ e := mul_le_mul_of_nonneg_right hlog hpos.le

/-- The magnitude that is left to a rounded significand is nearest to the exact one. -/
theorem nearestMagnitude_roundedSignificand {m : Nat} {e : Int} {accuracy : Accuracy} {x : ℚ}
    (hshift : 52 ≤ m.log2 ∨ e ≤ -1074)
    (hx : Represents (.ofMantissaAndAccuracy m accuracy) x) :
    NearestMagnitude (x * 2 ^ e)
      (roundedSignificand m e accuracy * 2 ^ roundingExponent m e) := by
  have hexp : e ≤ roundingExponent m e := by
    rw [roundingExponent]
    omega
  obtain ⟨hlow, hhigh⟩ := hx.bounds
  rw [mantissa_ofMantissaAndAccuracy] at hlow hhigh
  have hscaled : x * 2 ^ e / 2 ^ roundingExponent m e =
      x / 2 ^ (roundingExponent m e - e).toNat := by
    have hpow : (2 : ℚ) ^ roundingExponent m e =
        2 ^ (roundingExponent m e - e).toNat * 2 ^ e := by
      rw [← zpow_natCast, ← zpow_add₀ (by norm_num)]
      congr 1
      omega
    rw [hpow, mul_div_mul_right _ _ (zpow_pos (by norm_num) e).ne']
  refine ⟨roundingExponent m e, roundedSignificand m e accuracy, ?_, rfl, ?_⟩
  · exact isUnit_roundingExponent hshift hlow hhigh
  · rw [hscaled]
    exact (hx.shiftRight _).rounded

/-- **A rounded number has the value nearest to the exact one**, unless that value is beyond all
finite numbers.  From here on the exact value is all that is needed of an operation. -/
theorem IsRounded.exists_nearest {z : Float} {p : ℚ} (h : IsRounded z p) :
    ∃ v, Nearest p v ∧ (HasValue z v ∨
      ∃ s, z.toModel.unpack = .infinity s ∧ 2 ^ (1024 : Int) ≤ signValue s * v) := by
  cases h with
  | zero s => exact ⟨0, nearest_zero, .inl (hasValue_pack_zero s)⟩
  | @round s m e accuracy x hshift hx =>
      obtain ⟨hlow, -⟩ := hx.bounds
      rw [mantissa_ofMantissaAndAccuracy] at hlow
      have hx0 : (0 : ℚ) ≤ x := le_trans (Nat.cast_nonneg m) hlow
      have hnear := nearestMagnitude_roundedSignificand hshift hx
      refine ⟨signValue s * (roundedSignificand m e accuracy * 2 ^ roundingExponent m e),
        ⟨s, _, _, by positivity, hnear, rfl, rfl⟩, ?_⟩
      rcases pack_round_cases s accuracy hshift with hvalue | ⟨hinfinity, hbig⟩
      · rw [apply_eq, mul_assoc, Int.cast_natCast] at hvalue
        exact .inl hvalue
      · refine .inr ⟨s, hinfinity, ?_⟩
        rwa [← mul_assoc, signValue_mul_self, one_mul]

/-! ### Nearest integers -/

/-- Putting the limits in place of what lies beyond them keeps the order. -/
theorem clampInt64_mono {a b : Int} (h : a ≤ b) : clampInt64 a ≤ clampInt64 b := by
  have hmin : Int64.minValue.toInt = -9223372036854775808 := rfl
  have hmax : Int64.maxValue.toInt = 9223372036854775807 := rfl
  have htoInt : ∀ n : Int, (clampInt64 n).toInt =
      max Int64.minValue.toInt (min n Int64.maxValue.toInt) := by
    intro n
    rw [clampInt64]
    split
    · omega
    · split
      · omega
      · rw [Int64.toInt_ofInt_of_le (by omega) (by omega)]
        omega
  rw [Int64.le_iff_toInt_le, htoInt, htoInt]
  omega

/-- The 64-bit integer that stands for what lies beyond all of them. -/
def limitInt64 : Sign → Int64
  | .negative => Int64.minValue
  | .positive => Int64.maxValue

/-- The nearest integer to what lies beyond all finite numbers is the limit. -/
theorem clampInt64_roundAway_of_le {s : Sign} {v : ℚ} (h : 2 ^ (1024 : Int) ≤ signValue s * v) :
    clampInt64 (roundAway v) = limitInt64 s := by
  have hbig : ((2 ^ 64 : Int) : ℚ) ≤ signValue s * v := by
    refine le_trans ?_ h
    rw [Int.cast_pow, ← zpow_natCast]
    exact zpow_le_zpow_right₀ (by norm_num) (by norm_num)
  have hmin : Int64.minValue.toInt = -9223372036854775808 := rfl
  have hmax : Int64.maxValue.toInt = 9223372036854775807 := rfl
  cases s with
  | negative =>
      have hv : v ≤ ((-2 ^ 64 : Int) : ℚ) := by
        rw [signValue, neg_one_mul] at hbig
        rw [Int.cast_neg]
        exact le_neg_of_le_neg hbig
      have hround := roundAway_mono hv
      rw [roundAway_intCast] at hround
      rw [clampInt64, if_pos (by omega)]
      rfl
  | positive =>
      rw [signValue, one_mul] at hbig
      have hround := roundAway_mono hbig
      rw [roundAway_intCast] at hround
      rw [clampInt64, if_neg (by omega), if_pos (by omega)]
      rfl

/-- The nearest 64-bit integer to an infinity is the limit on its side. -/
theorem nearestInt64_of_unpack_infinity {x : Float} {s : Sign}
    (h : x.toModel.unpack = .infinity s) : nearestInt64 x = limitInt64 s := by
  have hnone : nearestInt? x = none := by
    rcases dyadic?_cases x with ⟨hnone, -⟩ | ⟨d, -, -, hz⟩ | ⟨d, hpos, -, -, hf⟩
    · rw [nearestInt?, hnone]
      rfl
    · rw [hz] at h
      cases h
    · rw [hf] at h
      cases h
  have hnan : x.isNaN = false := by
    show x.toModel.unpack.isNaN = false
    rw [h]
    rfl
  have hsign : signOf (signBit x) = s := sign_of_unpack_infinity h
  rw [nearestInt64, hnone, ← hsign]
  dsimp only
  rw [hnan]
  cases signBit x <;> rfl

/-- The nearest integer of a rounded number is that of the value nearest to the exact one. -/
theorem IsRounded.exists_nearestInt64 {z : Float} {p : ℚ} (h : IsRounded z p) :
    ∃ v, Nearest p v ∧ nearestInt64 z = clampInt64 (roundAway v) := by
  obtain ⟨v, hnear, hvalue | ⟨s, hinfinity, hbig⟩⟩ := h.exists_nearest
  · refine ⟨v, hnear, ?_⟩
    rw [nearestInt64, nearestInt?_eq_roundAway hvalue]
  · refine ⟨v, hnear, ?_⟩
    rw [nearestInt64_of_unpack_infinity hinfinity, clampInt64_roundAway_of_le hbig]

/-- **The nearest integers of rounded numbers are in the order of the exact values.**  Values beyond
all finite numbers are rounded to infinities, whose integers are the limits. -/
theorem nearestInt64_mono {z z' : Float} {p p' : ℚ} (h : IsRounded z p) (h' : IsRounded z' p')
    (hle : p ≤ p') : nearestInt64 z ≤ nearestInt64 z' := by
  obtain ⟨v, hnear, hz⟩ := h.exists_nearestInt64
  obtain ⟨v', hnear', hz'⟩ := h'.exists_nearestInt64
  rw [hz, hz']
  exact clampInt64_mono (roundAway_mono (hnear.mono hnear' hle))

/-- What was rounded from a value that is not negative is not negative. -/
theorem IsRounded.nonneg {z : Float} {p v : ℚ} (h : IsRounded z p) (hp : 0 ≤ p)
    (hv : HasValue z v) : 0 ≤ v := by
  obtain ⟨w, hnear, hvalue | ⟨s, hinfinity, -⟩⟩ := h.exists_nearest
  · rw [hv.unique hvalue]
    exact nearest_zero.mono hnear hp
  · rcases unpack_of_hasValue hv with ⟨-, t, hzero⟩ | ⟨t, m, e, hpos, hfinite, -⟩
    · rw [hzero] at hinfinity
      cases hinfinity
    · rw [hfinite] at hinfinity
      cases hinfinity

end Binary64

end FieldGrammar
