import ConcentratedPool.Proofs.GeometricMean
import ConcentratedPool.Proofs.SolverRun

/-!
# Whether the invariant settles

The solver of the invariant gives up after `Limits.maxIterations` steps, which are 64. On balances
of one unit each at least and a hundred million units in total at most, it never does, whatever the
curve parameters (`AmpGamma.exists_invariant_of_sum_le`): it starts at twice the geometric mean of
the balances, where `K₀` is one up to rounding (`AmpGamma.start_basin`), and settles within 61
steps. The first of them is counted apart, because `K₀` may be a little above one before it; of the
others 36 are for the coefficient of the sum, which is less than `9 / 2 * 3 ^ 36` times what it is
compared with (`AmpGamma.start_steep`).

On a pool of `10¹³` units against one, at the largest amplification and concentration, the solver
does give up: `K₀` is so small there that one unit of its last place moves a step by more than the
tolerance, and the iterates jump about the root for ever (`AmpGamma.invariant_cycles_skewed`).
-/

set_option autoImplicit false
set_option relaxedAutoImplicit false

namespace ConcentratedPool.AmpGamma

variable {a : AmpGamma} {x : Pair ℚ} {m : ℚ}

/-! ### The start -/

section Start

variable (hs : a.Moderate x) (hm : IsMean x m)
include hs hm

theorem mean_ge : 99 / 100 ≤ m := by
  have harea : 1 ≤ x.base * x.quote := by nlinarith [hs.base_ge, hs.quote_ge]
  have hlt := hm.lt_sq
  rw [Decimal.ulp_eq] at hlt
  by_contra hless
  nlinarith [hm.nonneg]

/-- At twice the geometric mean `K₀` is one, or above it by a quarter of the concentration at
most. -/
theorem start_product : 1 ≤ exactProduct (2 * m) x ∧
    exactProduct (2 * m) x ≤ 1 + a.gamma.toRat / 4 := by
  have hlarge := mean_ge hs hm
  have hsq : 0 < (2 * m) ^ 2 := by positivity
  unfold exactProduct
  constructor
  · rw [le_div_iff₀ hsq]
    linarith [hm.sq_le]
  · have hlt := hm.lt_sq
    have hscaled := mul_le_mul_of_nonneg_right hs.gamma_ge hsq.le
    rw [Decimal.ulp_eq] at hlt
    rw [div_le_iff₀ hsq]
    nlinarith

theorem start_room : 0 ≤ x.base + x.quote - 2 * m := by
  have hmean : (2 * m) ^ 2 ≤ (x.base + x.quote) ^ 2 := by
    linarith [sq_nonneg (x.base - x.quote), hm.sq_le]
  have hsum : 0 ≤ x.base + x.quote := by linarith [hs.base_ge, hs.quote_ge]
  exact sub_nonneg.mpr (le_of_sq_le_sq hmean hsum)

/-- The start is in the basin. -/
theorem start_basin : a.Basin (2 * m) x := by
  obtain ⟨hone, hproduct⟩ := start_product hs hm
  have hd : 0 < 2 * m := by linarith [mean_ge hs hm]
  have hgap : 3 / 4 * a.gamma.toRat ≤ a.exactGap (2 * m) x := by
    unfold exactGap
    linarith
  have ht := tangent_regular hs hd (by linarith [hs.gamma_pos])
  have hroom : 0 ≤ (a.tangent (2 * m) x).room := start_room hs hm
  have hvalue : 0 ≤ (a.tangent (2 * m) x).value := by
    rw [tangent_value]
    exact supports_of_one_le hd hs.nonneg hone
  have hspan : 0 ≤ (a.tangent (2 * m) x).span := by
    have hp := ht.pull_pos
    have hreach := ht.reach_pos
    have hsize := ht.size_pos
    unfold Tangent.span
    positivity
  refine ⟨hd, hgap, ?_, by linarith⟩
  linarith [ht.reach_pos]

theorem start_steep : (a.tangent (2 * m) x).pull * (a.tangent (2 * m) x).room ≤
    9 / 2 * 3 ^ 36 * ((a.tangent (2 * m) x).reach * (a.tangent (2 * m) x).size) := by
  have h := start_basin hs hm
  have hd := h.pos
  have hroom : (a.tangent (2 * m) x).room ≤ 10 ^ 4 * (2 * m) :=
    (le_abs_self _).trans (h.abs_room_le hs)
  have hshare : 18 / 10 ^ 9 ≤ a.exactShare (2 * m) x := by linarith [h.share_ge hs, hs.gamma_ge]
  calc (a.tangent (2 * m) x).pull * (a.tangent (2 * m) x).room
      ≤ 10 ^ 6 * (2 * m) * (10 ^ 4 * (2 * m)) := by
        refine mul_le_mul ?_ hroom (start_room hs hm) (by positivity)
        exact mul_le_mul_of_nonneg_right (h.weight_le hs) hd.le
    _ ≤ 9 / 2 * 3 ^ 36 * (18 / 10 ^ 9 * (2 * m) * (2 * m)) := by
        have hsq := mul_pos hd hd
        linarith
    _ ≤ 9 / 2 * 3 ^ 36 * ((a.tangent (2 * m) x).reach * (a.tangent (2 * m) x).size) := by
        simp only [tangent]
        gcongr

end Start

/-! ### Convergence -/

/-- From twice the geometric mean of the balances the solver settles within 61 steps. -/
theorem settles_of_start {y : Pair SignedDecimal} {e : SignedDecimal}
    (hx : y.map SignedDecimal.toRat = x) (hs : a.Moderate x) (hm : IsMean x m)
    (he : e.toRat = 2 * m) : a.Settles y 61 e := by
  have h := start_basin hs hm
  have hlarge := mean_ge hs hm
  have hsteep := start_steep hs hm
  rw [← he] at h hsteep
  refine settles_succ hx hs h fun next ρ hnext hfollows hfar ↦ ?_
  have hvalue : 0 ≤ (a.tangent e.toRat x).value := by
    rw [tangent_value]
    exact supports_of_one_le h.pos hs.nonneg (he ▸ (start_product hs hm).1)
  have hspan := h.span_pos hs
  have hreach := (h.regular hs).reach_pos
  have hρ : 0 < ρ := by
    rcases lt_trichotomy ρ 0 with hneg | rfl | hpos
    · linarith [(hfollows.mul_span_le_of_nonpos hneg.le).2, mul_neg_of_neg_of_pos hneg hspan]
    · rw [abs_zero, zero_mul, Limits.tolerance_toRat] at hfar
      norm_num at hfar
    · exact hpos
  have hpos := (hfollows.pos_iff hspan).mp hρ
  have h' := h.next hs hfollows
  have hcube : 1 ≤ (1 + ρ / 2) ^ 3 := one_le_pow₀ (by linarith)
  have hsteep' := h.steep_next hs hfollows hpos one_pos hcube
    (by positivity : 0 ≤ 9 / 2 * (3 : ℚ) ^ 36) (by linarith)
  rw [← hnext] at h' hsteep'
  refine settles_of_steep hx hs 36 h' ?_ hsteep'
  -- A step of more than the tolerance leaves the rounding of the mean behind.
  have hgrown : 2 * m + 1 / 1000 ≤ next.toRat := by
    have hreachEq : (a.tangent e.toRat x).reach = a.exactShare e.toRat x * e.toRat := rfl
    rw [abs_of_pos hρ, Limits.tolerance_toRat, hreachEq] at hfar
    rw [hnext, moved]
    linarith
  have hsq : (2 * m + 1 / 1000) ^ 2 ≤ next.toRat ^ 2 := pow_le_pow_left₀ (by linarith) hgrown 2
  have hlt := hm.lt_sq
  rw [Decimal.ulp_eq] at hlt
  simp only [tangent]
  linarith

/-- Twice a mean is computed exactly. -/
theorem exists_start {m : Decimal} (hm : m.raw ≤ 10 ^ 26) :
    ∃ start : Decimal, (Decimal.two * m : Except Fault Decimal) = .ok start ∧
      start.toSigned.toRat = 2 * m.toRat := by
  have hraw : Decimal.two.raw * m.raw / Decimal.scale = 2 * m.raw := by
    change 2 * Decimal.scale * m.raw / Decimal.scale = _
    rw [mul_right_comm]
    exact Nat.mul_div_cancel _ Decimal.scale_pos
  have hmax : 2 * m.raw ≤ Decimal.maxRaw := by
    unfold Decimal.maxRaw
    omega
  refine ⟨⟨2 * m.raw, hmax⟩, Decimal.mul_eq_ok.mpr hraw.symm, ?_⟩
  rw [SignedDecimal.toRat_toSigned, Decimal.toRat, Nat.cast_mul, mul_div_assoc]
  rfl

/-- A positive signed decimal loses its sign. -/
theorem exists_toUnsigned {r : SignedDecimal} (hpos : 0 < r.toRat) : ∃ d, r.toUnsigned = .ok d := by
  have hscale := Decimal.cast_scale_pos
  have hraw : 0 < r.raw := by exact_mod_cast (div_pos_iff_of_pos_right hscale).mp hpos
  have hmax : r.raw.toNat ≤ Decimal.maxRaw := by
    have := r.natAbs_raw_le
    omega
  refine ⟨⟨r.raw.toNat, hmax⟩, ?_⟩
  rw [SignedDecimal.toUnsigned, if_neg (by omega), Decimal.ofRaw_eq_ok]
  exact Int.toNat_of_nonneg hraw.le

/-- The invariant settles, for all curve parameters that governance may set, on balances of one unit
each at least and a hundred million units in total at most. -/
theorem exists_invariant_of_sum_le {amp gamma : Decimal} {x : Pair Decimal}
    (ha : AmpGamma.new amp gamma = .ok a) (hone : ∀ side, Decimal.one ≤ x.get side)
    (hsum : x.base.toRat + x.quote.toRat ≤ 10 ^ 8) : ∃ d, a.invariant x.toList = .ok d := by
  have hscale : (0 : ℚ) < Decimal.scale := by exact_mod_cast Decimal.scale_pos
  have hbelow : ∀ side, 1 ≤ (x.get side).toRat := fun side ↦ by
    rw [Decimal.toRat, one_le_div hscale]
    exact_mod_cast Decimal.le_def.mp (hone side)
  have habove : ∀ side, (x.get side).raw ≤ 10 ^ 26 := fun side ↦ by
    have hside : (x.get side).toRat ≤ 10 ^ 8 := by
      have hbase : 1 ≤ x.base.toRat := hbelow .base
      have hquote : 1 ≤ x.quote.toRat := hbelow .quote
      cases side with
      | base => exact (by linarith : x.base.toRat ≤ 10 ^ 8)
      | quote => exact (by linarith : x.quote.toRat ≤ 10 ^ 8)
    rw [Decimal.toRat, div_le_iff₀ hscale] at hside
    have hcast : ((x.get side).raw : ℚ) ≤ (10 ^ 26 : ℕ) := by
      refine hside.trans (le_of_eq ?_)
      norm_num [Decimal.scale]
    exact_mod_cast hcast
  have hs : a.Moderate (x.map Decimal.toRat) :=
    ⟨(new_eq_ok.mp ha).2, fun side ↦ by rw [Pair.get_map]; exact hbelow side, hsum⟩
  have hsame : (x.map Decimal.toSigned).map SignedDecimal.toRat = x.map Decimal.toRat := by
    simp only [Pair.map, SignedDecimal.toRat_toSigned]
  obtain ⟨m, hmean, hmLe, hm⟩ := exists_geometricMean habove
  obtain ⟨start, hstart, hstartEq⟩ := exists_start hmLe
  obtain ⟨r, hr, hpos⟩ := (settles_of_start hsame hs hm hstartEq).mono
    (by decide : 61 ≤ Limits.maxIterations)
  obtain ⟨d, hd⟩ := exists_toUnsigned hpos
  have hnonzero : x.any Decimal.isZero = false := by
    have hside : ∀ side, (x.get side).raw ≠ 0 := fun side ↦
      (Decimal.scale_pos.trans_le (Decimal.le_def.mp (hone side))).ne'
    rw [Pair.any, Bool.or_eq_false_iff, Decimal.isZero_eq_false, Decimal.isZero_eq_false]
    exact ⟨hside .base, hside .quote⟩
  refine ⟨d, ?_⟩
  simp only [invariant, positiveBalances, Pair.ofBalances, Pair.ofList?_toList, refuse_eq_ok,
    bind_eq_ok, pure_eq_ok, Curve.solveInvariant]
  exact ⟨x, ⟨x, rfl, ne_true_of_eq_false hnonzero, rfl⟩, m, hmean, start, hstart, r, hr, hd⟩

/-- One unit against ninety-nine million. -/
def lopsided : Pair Decimal := ⟨.one, ⟨99000000 * Decimal.scale, by decide +kernel⟩⟩

/-- On one unit against ninety-nine million the invariant settles, at the largest amplification and
concentration. -/
theorem exists_invariant_lopsided :
    ∃ a, new Limits.maxAmplification Limits.maxGamma = .ok a ∧
      (∀ side, Decimal.one ≤ lopsided.get side) ∧
      lopsided.base.toRat + lopsided.quote.toRat ≤ 10 ^ 8 ∧
      ∃ d, a.invariant lopsided.toList = .ok d := by
  have hone : ∀ side, Decimal.one ≤ lopsided.get side := by
    rintro (_ | _)
    · decide
    · decide
  have hsum : lopsided.base.toRat + lopsided.quote.toRat ≤ 10 ^ 8 := by
    norm_num [lopsided, Decimal.toRat, Decimal.one, Decimal.scale]
  have hnew : new Limits.maxAmplification Limits.maxGamma =
      .ok ⟨Limits.maxAmplification, Limits.maxGamma⟩ := rfl
  exact ⟨_, hnew, hone, hsum, exists_invariant_of_sum_le hnew hone hsum⟩

/-- One unit against `10¹³`, at the largest amplification and concentration, has no invariant: the
iterates do not settle. -/
theorem invariant_cycles_skewed :
    ∃ a, new Limits.maxAmplification Limits.maxGamma = .ok a ∧
      a.invariant [.one, ⟨10 ^ 13 * Decimal.scale, by decide⟩] =
        .error (.notConverging .invariant) :=
  ⟨⟨Limits.maxAmplification, Limits.maxGamma⟩, rfl, by decide +kernel⟩

end ConcentratedPool.AmpGamma
