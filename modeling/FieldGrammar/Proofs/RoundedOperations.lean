import Mathlib
import FieldGrammar.Proofs.Rounding

/-!
# Operations that round

Each operation that a fixed-point grid needs is described by the exact value that it rounds: the
product, the quotient or the integer.  Bounds on the error and the order of results follow from
that alone.

## Main statements

* `Binary64.isRounded_mul`, `Binary64.isRounded_div`, `Binary64.isRounded_ofNat` — the operations
* `Binary64.hasValue_ofInt64` — the error of converting a small integer
-/

open Float.Model Float.Model.UnpackedFloat

namespace FieldGrammar

namespace Binary64

/-! ### Products and quotients -/

/-- The product of a full significand and any other has enough bits to be rounded from. -/
theorem log2_mul_ge {m n : Nat} (hm : 2 ^ 52 ≤ m) (hn : 0 < n) : 52 ≤ (m * n).log2 := by
  rw [Nat.le_log2 (by positivity)]
  exact hm.trans (Nat.le_mul_of_pos_right m hn)

/-- A product is the exact product, rounded.  The significands are multiplied as they are, so
nothing is lost before rounding. -/
theorem isRounded_mul {x y : Float} {p q : ℚ} (hx : HasValue x p) (hy : HasValue y q) :
    IsRounded (x * y) (p * q) := by
  have hmul : x * y = .ofModel (.pack (UnpackedFloat.mul Format.binary64 x.toModel.unpack
    y.toModel.unpack)) := rfl
  rw [hmul]
  rcases unpack_of_hasValue hx with ⟨rfl, s, hux⟩ | ⟨s, m, e, hm, hux, hcx, rfl⟩
  · rw [zero_mul, hux]
    rcases unpack_of_hasValue hy with ⟨-, t, huy⟩ | ⟨t, n, f, hn, huy, -, -⟩
    · rw [huy]
      exact .zero _
    · rw [huy]
      exact .zero _
  · rcases unpack_of_hasValue hy with ⟨rfl, t, huy⟩ | ⟨t, n, f, hn, huy, hcy, rfl⟩
    · rw [mul_zero, hux, huy]
      exact .zero _
    · rw [hux, huy]
      have hexact : s.apply m * 2 ^ e * (t.apply n * 2 ^ f) =
          signValue (s * t) * (((m * n : Nat) : ℚ) * 2 ^ (e + f)) := by
        rw [signValue_mul, apply_eq, apply_eq, zpow_add₀ (by norm_num)]
        push_cast
        ring
      -- One full significand is enough for the product; two subnormal numbers are below the least
      -- exponent anyway.
      have hshift : 52 ≤ (m * n).log2 ∨ e + f ≤ -1074 := by
        rcases hcx.normal with hnormal | he
        · exact .inl (log2_mul_ge hnormal hn)
        · rcases hcy.normal with hnormal | hf
          · left
            rw [Nat.mul_comm]
            exact log2_mul_ge hnormal hm
          · right
            omega
      rw [hexact]
      exact .round (s * t) hshift (represents_exact (m * n))

/-- The whole part of a quotient, in units that leave it enough bits, and its fraction.  The
fraction is kept as a comparison with a half, which is what rounding needs of it. -/
theorem divCore_eq (m : Nat) (e : Int) (n : Nat) (f : Int) (hm : 0 < m) (hn : 0 < n) :
    ∃ k : Nat, divCore Format.binary64 m e n f =
        (m * 2 ^ k / n, e - f - k, accuracyOfFraction (m * 2 ^ k % n) n) ∧
      (52 ≤ (m * 2 ^ k / n).log2 ∨ e - f - (k : Int) ≤ -1074) := by
  set D := totalExponent m e - totalExponent n f with hD
  set t := min (e - f) (Format.binary64.targetExponent D) with ht
  have htarget : Format.binary64.targetExponent D = max (D - 53) (-1074) := rfl
  refine ⟨(e - f - t).toNat, ?_, ?_⟩
  · rw [divCore, Nat.shiftLeft_eq]
    simp only [← hD, ← ht]
    rw [show e - f - ((e - f - t).toNat : Int) = t by omega]
  · by_cases hsmall : t ≤ -1074
    · right
      omega
    · left
      have hge : 2 ^ 52 ≤ m * 2 ^ (e - f - t).toNat / n := by
        rw [Nat.le_div_iff_mul_le hn]
        have hlogn : n < 2 ^ (n.log2 + 1) := Nat.lt_log2_self
        have hlogm : 2 ^ m.log2 ≤ m := Nat.log2_self_le hm.ne'
        rw [totalExponent, totalExponent] at hD
        calc 2 ^ 52 * n ≤ 2 ^ 52 * 2 ^ (n.log2 + 1) := Nat.mul_le_mul_left _ hlogn.le
          _ = 2 ^ (52 + (n.log2 + 1)) := by rw [← pow_add]
          _ ≤ 2 ^ (m.log2 + (e - f - t).toNat) := Nat.pow_le_pow_right (by decide) (by omega)
          _ = 2 ^ m.log2 * 2 ^ (e - f - t).toNat := by rw [pow_add]
          _ ≤ m * 2 ^ (e - f - t).toNat := Nat.mul_le_mul_right _ hlogm
      exact (Nat.le_log2 (by omega)).2 hge

/-- A quotient is the exact quotient, rounded.  The divisor is not zero. -/
theorem isRounded_div {x y : Float} {p q : ℚ} (hx : HasValue x p) (hy : HasValue y q)
    (hq : q ≠ 0) : IsRounded (x / y) (p / q) := by
  have hdiv : x / y = .ofModel (.pack (UnpackedFloat.div Format.binary64 x.toModel.unpack
    y.toModel.unpack)) := rfl
  rw [hdiv]
  rcases unpack_of_hasValue hy with ⟨rfl, t, huy⟩ | ⟨t, n, f, hn, huy, hcy, rfl⟩
  · exact absurd rfl hq
  · rcases unpack_of_hasValue hx with ⟨rfl, s, hux⟩ | ⟨s, m, e, hm, hux, hcx, rfl⟩
    · rw [zero_div, hux, huy]
      exact .zero _
    · rw [hux, huy]
      obtain ⟨k, hcore, hshift⟩ := divCore_eq m e n f hm hn
      have hexact : s.apply m * 2 ^ e / (t.apply n * 2 ^ f) =
          signValue (s / t) * (((m * 2 ^ k : Nat) : ℚ) / n * 2 ^ (e - f - (k : Int))) := by
        rw [signValue_div, apply_eq, apply_eq, zpow_sub₀ (by norm_num), zpow_sub₀ (by norm_num),
          zpow_natCast]
        have hn' : (n : ℚ) ≠ 0 := by exact_mod_cast hn.ne'
        have ht : signValue t ≠ 0 := by cases t <;> norm_num [signValue]
        push_cast
        field_simp
      rw [hexact, UnpackedFloat.div, hcore]
      exact .round (s / t) hshift (represents_quotient (m * 2 ^ k) hn)

theorem log2_mul_two_pow {n : Nat} (hn : 0 < n) (k : Nat) : (n * 2 ^ k).log2 = n.log2 + k := by
  rw [Nat.log2_eq_iff (by positivity), pow_add, add_right_comm, pow_add]
  exact ⟨Nat.mul_le_mul_right _ (Nat.log2_self_le hn.ne'),
    Nat.mul_lt_mul_of_pos_right Nat.lt_log2_self (Nat.two_pow_pos k)⟩

/-- A positive integer is rounded from enough bits, so that it is moved up first if it is small. -/
theorem ofNat_eq_round {n : Nat} (hn : 0 < n) :
    ∃ k : Nat, UnpackedFloat.ofNat Format.binary64 n =
        roundWithAccuracy Format.binary64 .positive (n * 2 ^ k) (-(k : Int)) .exact ∧
      52 ≤ n.log2 + k := by
  refine ⟨(0 - roundingExponent n 0).toNat, ?_, ?_⟩
  · unfold UnpackedFloat.ofNat UnpackedFloat.ofInt UnpackedFloat.normalize
    have hcompare : compare (n : Int) 0 = .gt := compare_gt_iff_gt.2 (by omega)
    rw [hcompare]
    dsimp only
    unfold UnpackedFloat.round UnpackedFloat.decreaseExponent
    rw [targetExponent_eq]
    dsimp only
    rw [Nat.shiftLeft_eq, Int.toNat_natCast, zero_sub ((Int.toNat _ : Nat) : Int)]
  · rw [roundingExponent]
    omega

/-- A natural number as a number of the format is that number, rounded. -/
theorem isRounded_ofNat (n : Nat) :
    IsRounded (.ofModel (.pack (UnpackedFloat.ofNat Format.binary64 n))) n := by
  rcases Nat.eq_zero_or_pos n with rfl | hn
  · exact .zero .positive
  · obtain ⟨k, hround, hlog⟩ := ofNat_eq_round hn
    have hexact : (n : ℚ) =
        signValue .positive * (((n * 2 ^ k : Nat) : ℚ) * 2 ^ (-(k : Int))) := by
      rw [signValue, one_mul, zpow_neg, zpow_natCast]
      push_cast
      field_simp
    rw [hround, hexact]
    exact .round .positive (.inl (by rwa [log2_mul_two_pow hn])) (represents_exact _)

/-- Changing the sign changes the value. -/
theorem hasValue_neg {x : Float} {q : ℚ} (hx : HasValue x q) : HasValue (-x) (-q) := by
  have hneg : -x = .ofModel (.pack (UnpackedFloat.neg x.toModel.unpack)) := rfl
  rw [hneg]
  rcases unpack_of_hasValue hx with ⟨rfl, s, hux⟩ | ⟨s, m, e, hm, hux, hcx, rfl⟩
  · rw [hux, neg_zero]
    exact hasValue_pack_zero _
  · rw [hux]
    have hvalue := hasValue_pack_finite (s := -s) hm hcx
    have heq : ((-s).apply m : ℚ) * 2 ^ e = -((s.apply m : ℚ) * 2 ^ e) := by
      cases s
      · show ((m : Int) : ℚ) * 2 ^ e = -(((-(m : Int) : Int) : ℚ) * 2 ^ e)
        push_cast
        ring
      · show ((-(m : Int) : Int) : ℚ) * 2 ^ e = -(((m : Int) : ℚ) * 2 ^ e)
        push_cast
        ring
    rwa [heq] at hvalue

/-! ### Integers and constants -/

/-- One, which the conversion of a small integer multiplies by, in its exact form. -/
theorem dyadic?_one :
    dyadic? (Float.ofBits 0x3FF0000000000000) = some ⟨false, 2 ^ 52, -52, true⟩ := by
  decide +kernel

theorem hasValue_one : HasValue (Float.ofBits 0x3FF0000000000000) 1 :=
  ⟨_, dyadic?_one, by norm_num [Dyadic.value, Dyadic.signed]⟩

theorem hasValue_tenThousand : HasValue 10000.0 10000 := by
  have hform : dyadic? 10000.0 = some ⟨false, 10000 * 2 ^ 39, -39, false⟩ := by
    decide +kernel
  exact ⟨_, hform, by norm_num [Dyadic.value, Dyadic.signed]⟩

/-- The conversion of a small natural number multiplies by one at its end. -/
theorem ofNat_eq_mul {n : Nat} (h : n < 2 ^ 53) :
    Float.ofNat n = n.toUInt64.toFloat * Float.ofBits 0x3FF0000000000000 := by
  show Float.ofScientific n false 0 = _
  rw [Float.ofScientific, dif_pos ⟨h, by decide⟩]
  rfl

/-- A small natural number is converted by way of a machine word. -/
theorem toFloat_toUInt64 {n : Nat} (h : n < 2 ^ 53) :
    n.toUInt64.toFloat = .ofModel (.pack (UnpackedFloat.ofNat Format.binary64 n)) := by
  have hn : n.toUInt64.toNat = n := Nat.mod_eq_of_lt (h.trans (by norm_num))
  show Float.ofModel (.pack (UnpackedFloat.ofNat Format.binary64 n.toUInt64.toNat)) = _
  rw [hn]

/-- A small natural number is converted to a number close to it.  The conversion goes by way of a
machine word and a multiplication by one, which may round. -/
theorem hasValue_ofNat {n : Nat} {N : Int} (hN : 0 ≤ N) (hN' : N ≤ 52) (hbound : (n : ℚ) ≤ 2 ^ N) :
    ∃ v, HasValue (Float.ofNat n) v ∧ |v - n| ≤ 2 ^ (N - 50) := by
  have hlt : n < 2 ^ 53 := by
    have hpow : (2 : ℚ) ^ N ≤ 2 ^ (52 : Int) := zpow_le_zpow_right₀ (by norm_num) hN'
    have hcast : (n : ℚ) < 2 ^ 53 := (hbound.trans hpow).trans_lt (by norm_num)
    exact_mod_cast hcast
  have habs : |(n : ℚ)| ≤ 2 ^ N := by rwa [Nat.abs_cast]
  -- Two roundings: the conversion of the word, and the multiplication by one.
  obtain ⟨u, hu, herror⟩ := (isRounded_ofNat n).error (by omega) (by omega) habs
  rw [← toFloat_toUInt64 hlt] at hu
  have hunit : (2 : ℚ) ^ (N - 52) ≤ 1 := zpow_le_one_of_nonpos₀ (by norm_num) (by omega)
  have hge : (1 : ℚ) ≤ 2 ^ N := one_le_zpow₀ (by norm_num) hN
  have hdouble : (2 : ℚ) ^ (N + 1) = 2 * 2 ^ N := by rw [zpow_add_one₀ (by norm_num), mul_comm]
  have hu' : |u * 1| ≤ 2 ^ (N + 1) := by
    rw [mul_one, hdouble]
    rw [abs_le] at herror ⊢
    have hn : (0 : ℚ) ≤ n := Nat.cast_nonneg n
    constructor <;> linarith [herror.1, herror.2]
  obtain ⟨v, hv, herror'⟩ := (isRounded_mul hu hasValue_one).error (by omega) (by omega) hu'
  rw [← ofNat_eq_mul hlt] at hv
  refine ⟨v, hv, ?_⟩
  have h1 : (2 : ℚ) ^ (N - 50) = 4 * 2 ^ (N - 52) := by
    rw [show N - 50 = N - 52 + 2 by omega, zpow_add₀ (by norm_num)]
    norm_num [mul_comm]
  have h2 : (2 : ℚ) ^ (N + 1 - 52) = 2 * 2 ^ (N - 52) := by
    rw [show N + 1 - 52 = N - 52 + 1 by omega, zpow_add₀ (by norm_num)]
    norm_num [mul_comm]
  rw [mul_one] at herror'
  rw [h1]
  rw [h2] at herror'
  have hpos : (0 : ℚ) < 2 ^ (N - 52) := zpow_pos (by norm_num) _
  calc |v - n| ≤ |v - u| + |u - n| := abs_sub_le v u n
    _ ≤ 4 * 2 ^ (N - 52) := by linarith

/-- A small integer is converted to a number close to it.  The sign is put in front afterwards. -/
theorem hasValue_ofInt64 {k : Int64} {N : Int} (hN : 0 ≤ N) (hN' : N ≤ 52)
    (hbound : |(k.toInt : ℚ)| ≤ 2 ^ N) :
    ∃ v, HasValue (ofInt64 k) v ∧ |v - k.toInt| ≤ 2 ^ (N - 50) := by
  rw [ofInt64]
  cases hk : k.toInt with
  | ofNat n =>
      rw [hk] at hbound
      simp only [Int.ofNat_eq_natCast, Int.cast_natCast, Nat.abs_cast] at hbound ⊢
      exact hasValue_ofNat hN hN' hbound
  | negSucc n =>
      have hcast : ((Int.negSucc n : Int) : ℚ) = -((n + 1 : Nat) : ℚ) := by
        rw [Int.cast_negSucc]
      rw [hk, hcast, abs_neg, Nat.abs_cast] at hbound
      obtain ⟨v, hv, herror⟩ := hasValue_ofNat hN hN' hbound
      refine ⟨-v, hasValue_neg hv, ?_⟩
      rw [hcast, sub_neg_eq_add, neg_add_eq_sub, abs_sub_comm]
      exact herror

theorem clampInt64_toInt (k : Int64) : clampInt64 k.toInt = k := by
  have h1 := Int64.minValue_le_toInt k
  have h2 := Int64.toInt_le k
  rw [clampInt64, if_neg (not_lt.2 h1), if_neg (not_lt.2 h2), Int64.ofInt_toInt]

end Binary64

end FieldGrammar
