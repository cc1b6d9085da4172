import Mathlib
import FieldGrammar.Packing.Range
import FieldGrammar.Proofs.Magnitude

/-!
# The numbers of a grid

Three facts about fixed-point grids.  The grid of one ten-thousandth, which the attributes of
fixed-point fields travel on, gives every step number back that these attributes can have.
Whatever the grid of a valid field, no step number of it stands for NaN, so that a value that was
read is the same as itself.  And counting steps keeps the order, since both the precision and the
whole number that it is the reciprocal of are positive, so that bounds in order are in order as
numbers of steps.

## Main statements

* `Grid.stepsOf_valueOf_resolution` — the grid of one ten-thousandth
* `Grid.isNaN_valueOf` — the grid of a valid field
* `Grid.stepsOf_le_of_not_lt`, `Grid.stepsOf_congr` — the order of numbers of steps
-/

open Float.Model Float.Model.UnpackedFloat

namespace FieldGrammar

namespace Grid

theorem precision_ofPrecision (precision : Float) :
    (ofPrecision precision).precision = precision := by
  rw [ofPrecision]
  split <;> rfl

/-! ### One ten-thousandth -/

/-- The grid of one ten-thousandth divides by ten thousand. -/
theorem divisor_resolution : (ofPrecision 1e-4).divisor = some 10000.0 := by
  decide +kernel

/-- A number of the grid of one ten-thousandth is close to that many ten-thousandths.  Converting
and dividing are each off by a small part of a step. -/
theorem hasValue_valueOf_resolution {k : Int64} (h : |k.toInt| ≤ 10 ^ 13) :
    ∃ x, Binary64.HasValue ((ofPrecision 1e-4).valueOf k) x ∧
      |x - k.toInt / 10000| ≤ 1 / 100000 := by
  have hk : |(k.toInt : ℚ)| ≤ 10 ^ 13 := by exact_mod_cast h
  obtain ⟨a, ha, herror⟩ := Binary64.hasValue_ofInt64 (k := k) (N := 44) (by norm_num) (by norm_num)
    (hk.trans (by norm_num))
  norm_num at herror
  have hquotient : |a / 10000| ≤ 2 ^ (30 : Int) := by
    rw [abs_le] at hk herror ⊢
    norm_num
    constructor <;> linarith [hk.1, hk.2, herror.1, herror.2]
  obtain ⟨x, hx, herror'⟩ := (Binary64.isRounded_div ha Binary64.hasValue_tenThousand
    (by norm_num)).error (by norm_num) (by norm_num) hquotient
  norm_num at herror'
  rw [valueOf, divisor_resolution]
  refine ⟨x, hx, ?_⟩
  rw [abs_le] at herror herror' ⊢
  constructor <;> linarith [herror.1, herror.2, herror'.1, herror'.2]

/-- **The grid of one ten-thousandth gives every step number up to ten million million back.**  The
number at a step is off from the exact quotient by so little that multiplying by ten thousand lands
less than a half away from the step. -/
theorem stepsOf_valueOf_resolution {k : Int64} (h : |k.toInt| ≤ 10 ^ 13) :
    (ofPrecision 1e-4).stepsOf ((ofPrecision 1e-4).valueOf k) = k := by
  have hk : |(k.toInt : ℚ)| ≤ 10 ^ 13 := by exact_mod_cast h
  obtain ⟨x, hx, herror⟩ := hasValue_valueOf_resolution h
  have hproduct : |x * 10000| ≤ 2 ^ (44 : Int) := by
    rw [abs_le] at hk herror ⊢
    norm_num
    constructor <;> linarith [hk.1, hk.2, herror.1, herror.2]
  obtain ⟨y, hy, herror'⟩ := (Binary64.isRounded_mul hx Binary64.hasValue_tenThousand).error
    (by norm_num) (by norm_num) hproduct
  norm_num at herror'
  have hclose : |y - k.toInt| < 1 / 2 := by
    rw [abs_le] at herror herror'
    rw [abs_lt]
    constructor <;> linarith [herror.1, herror.2, herror'.1, herror'.2]
  rw [stepsOf, divisor_resolution]
  dsimp only
  rw [Binary64.nearestInt64, Binary64.nearestInt?_eq hy hclose]
  exact Binary64.clampInt64_toInt k

theorem isFinite_valueOf_resolution {k : Int64} (h : |k.toInt| ≤ 10 ^ 13) :
    ((ofPrecision 1e-4).valueOf k).isFinite = true := by
  obtain ⟨x, hx, -⟩ := hasValue_valueOf_resolution h
  exact Binary64.isFinite_iff.2 ⟨x, hx⟩

/-! ### The whole number that a grid divides by -/

private theorem dyadic?_literal_one : Binary64.dyadic? 1.0 = some ⟨false, 2 ^ 52, -52, true⟩ := by
  decide +kernel

/-- The inverse of a number between zero and one is at least one.  Rounding does not cross one, so
this holds of the rounded inverse. -/
theorem large_inverse {precision : Float} {m : Nat} {e : Int} {hm : 0 < m}
    (hunpack : precision.toModel.unpack = .finite .positive m e hm)
    (hcanonical : Binary64.Canonical m e) (hlt : precision < 1.0) :
    Binary64.Large (1.0 / precision) := by
  obtain ⟨hone, hunpackOne⟩ := Binary64.unpack_of_dyadic? dyadic?_literal_one (by decide)
  -- A canonical number below one has an exponent below that of one.
  have he : e ≤ -53 := by
    have hcompare := Binary64.lt_iff_unpack.1 hlt
    rw [hunpack, hunpackOne] at hcompare
    change some ((compare e (-52)).then (compare m (2 ^ 52))) = some .lt at hcompare
    rw [Option.some.injEq, Ordering.then_eq_lt, compare_lt_iff_lt, compare_lt_iff_lt,
      compare_eq_iff_eq] at hcompare
    rcases hcompare with hexp | ⟨hexp, hman⟩
    · omega
    · rcases hcanonical.normal with hnormal | hmin
      · omega
      · omega
  have hdiv : 1.0 / precision = .ofModel (.pack (UnpackedFloat.div Format.binary64
    (1.0 : Float).toModel.unpack precision.toModel.unpack)) := rfl
  obtain ⟨k, hcore, hshift⟩ := Binary64.divCore_eq (2 ^ 52) (-52) m e (by decide) hm
  rw [hdiv, hunpack, hunpackOne, UnpackedFloat.div]
  dsimp only
  rw [hcore]
  -- So the quotient has enough bits to be at least one before rounding.
  have hquotient : k - 1 ≤ (2 ^ 52 * 2 ^ k / m).log2 := by
    rcases Nat.eq_zero_or_pos k with rfl | hk
    · exact Nat.zero_le _
    · have hge : 2 ^ (k - 1) ≤ 2 ^ 52 * 2 ^ k / m := by
        rw [Nat.le_div_iff_mul_le hm]
        calc 2 ^ (k - 1) * m ≤ 2 ^ (k - 1) * 2 ^ 53 := Nat.mul_le_mul_left _ hcanonical.lt.le
          _ = 2 ^ 52 * 2 ^ k := by
            rw [← pow_add, ← pow_add]
            congr 1
            omega
      have hne : 2 ^ 52 * 2 ^ k / m ≠ 0 := (lt_of_lt_of_le (Nat.two_pow_pos _) hge).ne'
      exact (Nat.le_log2 hne).2 hge
  refine Binary64.large_pack_round _ _ ?_ ?_
  · dsimp only
    omega
  · dsimp only
    omega

/-- The nearest whole number to one that is at least one in magnitude is not zero. -/
theorem nearestInt?_ne_zero {x : Float} {s : Sign} {m : Nat} {e : Int} {hpos : 0 < m}
    (hunpack : x.toModel.unpack = .finite s m e hpos) (hm : 2 ^ 52 ≤ m) (he : -52 ≤ e) :
    ∃ n, Binary64.nearestInt? x = some n ∧ n ≠ 0 := by
  have hm' : (2 : ℚ) ^ (52 : Int) ≤ m := by exact_mod_cast hm
  have hone : ((1 : Int) : ℚ) ≤ m * 2 ^ e := by
    calc ((1 : Int) : ℚ) = 1 := Int.cast_one
      _ ≤ 2 ^ (52 + e) := one_le_zpow₀ (by norm_num) (by omega)
      _ = 2 ^ (52 : Int) * 2 ^ e := zpow_add₀ (by norm_num) _ _
      _ ≤ m * 2 ^ e := mul_le_mul_of_nonneg_right hm' (zpow_pos (by norm_num) e).le
  have hround := Binary64.roundAway_mono hone
  rw [Binary64.roundAway_intCast] at hround
  refine ⟨_, Binary64.nearestInt?_eq_roundAway (Binary64.hasValue_of_unpack_finite hunpack), ?_⟩
  cases s with
  | positive =>
      rw [Sign.apply, Int.cast_natCast]
      omega
  | negative =>
      rw [Sign.apply, Int.cast_neg, Int.cast_natCast, neg_mul, Binary64.roundAway_neg]
      omega

/-- A number close to the nearest whole number, which is finite and not zero. -/
theorem unpack_nearestWhole {x : Float} (hx : Binary64.Large x)
    (hclose : (x - Binary64.nearestWhole x).abs < 1e-9) :
    ∃ s m e hm, (Binary64.nearestWhole x).toModel.unpack = .finite s m e hm := by
  have hbound : ∃ s m e hm, (1e-9 : Float).toModel.unpack = .finite s m e hm := by
    have hform : Binary64.dyadic? 1e-9 =
        some ⟨false, 4835703278458517, -82, false⟩ := by decide +kernel
    obtain ⟨hm, h⟩ := Binary64.unpack_of_dyadic? hform (by decide)
    exact ⟨_, _, _, hm, h⟩
  obtain ⟨s', m', e', hm', hbound⟩ := hbound
  have hsub : ∀ y : Float, (x - y).abs = .ofModel (.pack (UnpackedFloat.abs (Float.Model.pack
    (UnpackedFloat.sub Format.binary64 x.toModel.unpack y.toModel.unpack)).unpack)) := fun _ => rfl
  rw [Binary64.lt_iff_unpack, hsub, hbound] at hclose
  rcases hx with ⟨s, hs⟩ | ⟨s, m, e, hpos, hfinite, hm, he⟩
  -- Infinity is its own nearest whole number, and the difference is NaN, which is not small.
  · have hwhole : Binary64.nearestWhole x = x := by
      rcases Binary64.dyadic?_cases x with ⟨hnone, -⟩ | ⟨d, -, -, h⟩ | ⟨d, hp, -, -, h⟩
      · rw [Binary64.nearestWhole, Binary64.nearestInt?, hnone]
        rfl
      · rw [hs] at h
        cases h
      · rw [hs] at h
        cases h
    have hnan : UnpackedFloat.sub Format.binary64 (.infinity s) (.infinity s) = .notANumber := by
      cases s <;> rfl
    rw [hwhole, hs, hnan, Binary64.unpack_pack_nan] at hclose
    change (Float.Model.pack .notANumber).unpack.compare _ = _ at hclose
    rw [Binary64.unpack_pack_nan] at hclose
    cases hclose
  · obtain ⟨n, hn, hne⟩ := nearestInt?_ne_zero hfinite hm he
    have hwhole : Binary64.nearestWhole x = Float.ofInt n := by
      rw [Binary64.nearestWhole, hn]
      split
      · next h => cases h
      · next h => exact absurd (Option.some.inj h) hne
      · next h => rw [Option.some.inj h]
    rw [hwhole] at hclose ⊢
    rcases Binary64.large_ofInt hne with ⟨t, ht⟩ | ⟨t, n', f, hn', h, -, -⟩
    -- A finite number is not close to infinity.
    · have hsubInfinity : UnpackedFloat.sub Format.binary64 (.finite s m e hpos) (.infinity t) =
          .infinity (-t) := rfl
      rw [ht, hfinite, hsubInfinity, Binary64.unpack_pack_infinity] at hclose
      change (Float.Model.pack (.infinity .positive)).unpack.compare _ = _ at hclose
      rw [Binary64.unpack_pack_infinity] at hclose
      cases hclose
    · exact ⟨t, n', f, hn', h⟩

/-- The whole number that a precision is the reciprocal of is finite and not zero. -/
theorem unpack_divisor {precision divisor : Float} (hfinite : precision.isFinite = true)
    (hpos : ¬precision ≤ 0.0) (h : (ofPrecision precision).divisor = some divisor) :
    ∃ s m e hm, divisor.toModel.unpack = .finite s m e hm := by
  obtain ⟨m, e, hm, hunpack, hcanonical⟩ := Binary64.unpack_of_not_le_zero hfinite hpos
  rw [ofPrecision] at h
  split at h
  · next hreciprocal =>
    rw [Option.some.injEq] at h
    subst h
    exact unpack_nearestWhole (large_inverse hunpack hcanonical hreciprocal.1) hreciprocal.2
  · cases h

/-- **The numbers of a grid are no NaN.**  Whether a step is divided by a whole number or multiplied
by the precision, neither of the two is zero or infinite. -/
theorem isNaN_valueOf {precision : Float} (hfinite : precision.isFinite = true)
    (hpos : ¬precision ≤ 0.0) (steps : Int64) :
    ((ofPrecision precision).valueOf steps).isNaN = false := by
  have hsteps : (Binary64.ofInt64 steps).toModel.unpack ≠ .notANumber :=
    Binary64.unpack_ofInt_ne_nan steps.toInt
  rw [valueOf]
  cases hdivisor : (ofPrecision precision).divisor with
  | some divisor =>
      obtain ⟨s, m, e, hm, hunpack⟩ := unpack_divisor hfinite hpos hdivisor
      exact Binary64.isNaN_div hsteps hunpack
  | none =>
      obtain ⟨m, e, hm, hunpack, -⟩ := Binary64.unpack_of_not_le_zero hfinite hpos
      dsimp only
      rw [precision_ofPrecision]
      exact Binary64.isNaN_mul hsteps hunpack

/-! ### Order -/

private theorem hasValue_zero : Binary64.HasValue 0.0 0 ∧ Binary64.HasValue (-0.0) 0 :=
  ⟨⟨⟨false, 0, -1074, false⟩, by decide +kernel, by norm_num [Dyadic.value, Dyadic.signed]⟩,
    ⟨⟨true, 0, -1074, false⟩, by decide +kernel, by norm_num [Dyadic.value, Dyadic.signed]⟩⟩

/-- The nearest whole number to one that was rounded from a value that is not negative is not
negative. -/
theorem nonneg_of_hasValue_nearestWhole {x : Float} {p q : ℚ} (hx : Binary64.IsRounded x p)
    (hp : 0 ≤ p) (h : Binary64.HasValue (Binary64.nearestWhole x) q) : 0 ≤ q := by
  rw [Binary64.nearestWhole] at h
  split at h
  · exact hx.nonneg hp h
  · split at h
    · rw [h.unique hasValue_zero.2]
    · rw [h.unique hasValue_zero.1]
  · next n hne hn =>
    obtain ⟨d, hd, -⟩ := Option.map_eq_some_iff.1 hn
    have hvalue : Binary64.HasValue x d.value := ⟨d, hd, rfl⟩
    rw [Binary64.nearestInt?_eq_roundAway hvalue, Option.some.injEq] at hn
    have hnonneg : 0 ≤ n := by
      have hround := Binary64.roundAway_mono (hx.nonneg hp hvalue)
      rwa [hn, Binary64.roundAway_of_nonneg le_rfl, round_zero] at hround
    obtain ⟨k, rfl⟩ := Int.eq_ofNat_of_zero_le hnonneg
    exact Binary64.nonneg_of_hasValue_ofNat h

/-- A positive precision is a positive value. -/
theorem hasValue_precision {precision : Float} (hfinite : precision.isFinite = true)
    (hpos : ¬precision ≤ 0.0) : ∃ p, Binary64.HasValue precision p ∧ 0 < p := by
  obtain ⟨m, e, hm, hunpack, -⟩ := Binary64.unpack_of_not_le_zero hfinite hpos
  refine ⟨_, Binary64.hasValue_of_unpack_finite hunpack, ?_⟩
  rw [Sign.apply]
  positivity

/-- The whole number that a precision is the reciprocal of is finite and positive. -/
theorem hasValue_divisor {precision divisor : Float} (hfinite : precision.isFinite = true)
    (hpos : ¬precision ≤ 0.0) (h : (ofPrecision precision).divisor = some divisor) :
    ∃ q, Binary64.HasValue divisor q ∧ 0 < q := by
  obtain ⟨s, m, e, hm, hunpack⟩ := unpack_divisor hfinite hpos h
  have hvalue := Binary64.hasValue_of_unpack_finite hunpack
  have hdivisor : divisor = Binary64.nearestWhole (1.0 / precision) := by
    rw [ofPrecision] at h
    split at h
    · exact (Option.some.inj h).symm
    · cases h
  obtain ⟨p, hp, hp0⟩ := hasValue_precision hfinite hpos
  have hone : Binary64.HasValue 1.0 1 :=
    ⟨_, dyadic?_literal_one, by norm_num [Dyadic.value, Dyadic.signed]⟩
  have hinverse := Binary64.isRounded_div hone hp hp0.ne'
  -- It is not zero by its unpacked form, and not negative because the inverse is positive.
  refine ⟨_, hvalue, lt_of_le_of_ne ?_ ?_⟩
  · rw [hdivisor] at hvalue
    exact nonneg_of_hasValue_nearestWhole hinverse (by positivity) hvalue
  · rw [Binary64.apply_eq]
    have hsign : Binary64.signValue s ≠ 0 := by cases s <;> norm_num [Binary64.signValue]
    have hm' : (((m : Nat) : Int) : ℚ) ≠ 0 := by exact_mod_cast hm.ne'
    exact (mul_ne_zero (mul_ne_zero hsign hm') (zpow_pos (by norm_num) e).ne').symm

/-- **The numbers of steps are in the order of the values.**  Multiplying or dividing by a positive
number keeps the order before rounding, and rounding keeps it too. -/
theorem stepsOf_mono {precision : Float} (hfinite : precision.isFinite = true)
    (hpos : ¬precision ≤ 0.0) {x y : Float} {p q : ℚ} (hx : Binary64.HasValue x p)
    (hy : Binary64.HasValue y q) (hle : p ≤ q) :
    (ofPrecision precision).stepsOf x ≤ (ofPrecision precision).stepsOf y := by
  rw [stepsOf, stepsOf]
  cases hdivisor : (ofPrecision precision).divisor with
  | some divisor =>
      obtain ⟨c, hc, hc0⟩ := hasValue_divisor hfinite hpos hdivisor
      exact Binary64.nearestInt64_mono (Binary64.isRounded_mul hx hc)
        (Binary64.isRounded_mul hy hc) (mul_le_mul_of_nonneg_right hle hc0.le)
  | none =>
      obtain ⟨c, hc, hc0⟩ := hasValue_precision hfinite hpos
      dsimp only
      rw [precision_ofPrecision]
      exact Binary64.nearestInt64_mono (Binary64.isRounded_div hx hc hc0.ne')
        (Binary64.isRounded_div hy hc hc0.ne') (div_le_div_of_nonneg_right hle hc0.le)

/-- Bounds in order are in order as numbers of steps. -/
theorem stepsOf_le_of_not_lt {precision : Float} (hfinite : precision.isFinite = true)
    (hpos : ¬precision ≤ 0.0) {x y : Float} (hx : x.isFinite = true) (hy : y.isFinite = true)
    (h : ¬y < x) : (ofPrecision precision).stepsOf x ≤ (ofPrecision precision).stepsOf y := by
  obtain ⟨p, hp⟩ := Binary64.isFinite_iff.1 hx
  obtain ⟨q, hq⟩ := Binary64.isFinite_iff.1 hy
  exact stepsOf_mono hfinite hpos hp hq (Binary64.le_of_not_lt hp hq h)

/-- Equal numbers have equal numbers of steps. -/
theorem stepsOf_congr {precision : Float} (hfinite : precision.isFinite = true)
    (hpos : ¬precision ≤ 0.0) {x y : Float} (hx : x.isFinite = true) (h : (x == y) = true) :
    (ofPrecision precision).stepsOf x = (ofPrecision precision).stepsOf y := by
  obtain ⟨p, hp⟩ := Binary64.isFinite_iff.1 hx
  obtain ⟨q, hq⟩ := Binary64.isFinite_iff.1 ((Binary64.isFinite_congr h).symm.trans hx)
  have heq := Binary64.eq_of_beq hp hq h
  exact Int64.le_antisymm (stepsOf_mono hfinite hpos hp hq heq.le)
    (stepsOf_mono hfinite hpos hq hp heq.ge)

end Grid

end FieldGrammar
