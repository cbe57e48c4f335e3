import ConcentratedPool.Proofs.CurveRounding
import ConcentratedPool.Proofs.NewtonBasin

/-!
# Sizes in the basin

What the roundings of a step may come to depends on how large the invariant is, how small `K₀` and
the gap are, and how the three go together. A weight that is wrong by a part of itself moves the
step by that part of a reach, at most; so its error counts as `AmpGamma.weightError` times the reach
(`AmpGamma.Basin.weightError_mul_reach_le`), and it is the three products in it that are bounded:

* the reach over `K₀`: where `K₀` is small, the invariant is at most a multiple of `A γ² K₀` times
  the sum of the balances (`AmpGamma.Basin.size_le_of_product_le`);
* the reach over the gap: the reach is at most the gap times the invariant;
* the reach times the gap over the concentration: where `K₀` is small, the invariant is at most a
  multiple of `γ` (`AmpGamma.Basin.size_le_gamma`); where it is not and the gap is wide beside the
  concentration, the square of the gap times the invariant is one
  (`AmpGamma.Basin.gap_sq_mul_size_le`).

So `F` is computed to six millionths of its derivative (`AmpGamma.Basin.residual_error_le`), and the
derivative to a hundred thousandth of itself (`AmpGamma.Basin.slope_error_le`).
-/

set_option autoImplicit false
set_option relaxedAutoImplicit false

namespace ConcentratedPool

namespace AmpGamma

/-- How far a computed weight may be off, as a part of itself. -/
def weightError (a : AmpGamma) (d : ℚ) (x : Pair ℚ) : ℚ :=
  Decimal.ulp * (801 / 100 / exactProduct d x + 1801 / 100 / a.exactGap d x +
    201 / 100 * a.exactGap d x / a.gamma.toRat)

variable {a : AmpGamma} {d : ℚ} {x : Pair ℚ}

namespace Basin

variable (h : a.Basin d x) (hs : a.Moderate x)
include h hs

/-! ### Invariant, `K₀` and gap -/

theorem size_le_sum : 9 / 10 * d ≤ x.base + x.quote := by
  have hroom := h.room_ge
  have hreach := (h.regular hs).reach_le
  simp only [tangent] at hroom hreach
  linarith

theorem size_le : d ≤ 9 / 8 * 10 ^ 8 := by
  linarith [h.size_le_sum hs, hs.sum_le]

theorem product_le_bound : exactProduct d x ≤ 201 / 200 := by
  linarith [h.product_le, hs.gamma_le]

/-- The square of the invariant is at least about twice the sum of the balances. -/
theorem sum_le_sq : x.base + x.quote ≤ 503 / 1000 * d ^ 2 := by
  have hbase := hs.base_ge
  have hquote := hs.quote_ge
  have hscaled := mul_le_mul_of_nonneg_right (h.product_le_bound hs) (sq_nonneg d)
  rw [h.product_mul_sq] at hscaled
  nlinarith

theorem size_ge : 199 / 100 ≤ d := by
  have hbase := hs.base_ge
  have hquote := hs.quote_ge
  have hsum := h.sum_le_sq hs
  by_contra hless
  have hsq : d ^ 2 ≤ (199 / 100) ^ 2 := pow_le_pow_left₀ h.pos.le (not_le.mp hless).le 2
  linarith

/-- The invariant is not small beside the sum of the balances. -/
theorem sum_le_mul : x.base + x.quote ≤ 10 ^ 4 * d := by
  have hbase := hs.base_ge
  have hquote := hs.quote_ge
  have hsum := h.sum_le_sq hs
  have hpos := h.pos
  have hsq : (x.base + x.quote) ^ 2 ≤ (10 ^ 4 * d) ^ 2 := by
    nlinarith [hs.sum_le]
  exact le_of_sq_le_sq hsq (by positivity)

theorem product_ge : 1 / 10 ^ 8 ≤ exactProduct d x := by
  have hbase := hs.base_ge
  have hquote := hs.quote_ge
  have hless := h.size_le_sum hs
  have hsq : 0 < d ^ 2 := pow_pos h.pos 2
  refine le_of_mul_le_mul_right ?_ hsq
  rw [h.product_mul_sq]
  have hsmall : d ^ 2 ≤ 125 / 100 * (10 ^ 8 * (x.base + x.quote)) := by
    have hd := h.pos
    nlinarith [hs.sum_le]
  nlinarith

theorem gap_le : a.exactGap d x ≤ 51 / 50 := by
  have hk := hs.product_pos h.pos
  unfold exactGap
  linarith [hs.gamma_le]

theorem gap_ge_small : 3 / 4 / 10 ^ 7 ≤ a.exactGap d x := by
  linarith [h.gap_ge, hs.gamma_ge]

/-- The part of the invariant that the reach is, is at most the gap. -/
theorem share_le_gap : a.exactShare d x ≤ a.exactGap d x := by
  have hk := hs.product_pos h.pos
  have hgap := h.gap_pos hs
  have hshare := exactShare_pos hk hgap
  have hone : 1 ≤ a.exactGap d x + 4 * exactProduct d x := by
    unfold exactGap
    linarith [hs.gamma_pos]
  have hscaled := mul_le_mul_of_nonneg_left hone hshare.le
  rw [exactShare_mul hk hgap] at hscaled
  linarith

/-- An iterate that has not passed the root by much has a square that lacks no more than the sum of
the balances makes up for. -/
theorem lack_le : d ^ 2 / 4 - x.base * x.quote ≤
    6 / 5 * (a.exactWeight (exactProduct d x) * d * (x.base + x.quote)) +
      1 / 10 * (a.exactShare d x * d ^ 2) := by
  have hvalue := h.value_ge
  have ht := h.regular hs
  have hp := ht.pull_pos
  have hsum : 6 / 5 * (a.tangent d x).room + 1 / 5 * (a.tangent d x).reach ≤
      6 / 5 * (x.base + x.quote) := by
    have hle := ht.reach_le
    simp only [tangent] at hle ⊢
    linarith [h.pos]
  have hscaled := mul_le_mul_of_nonneg_left hsum hp.le
  have hsize : (a.tangent d x).reach * (a.tangent d x).size = a.exactShare d x * d ^ 2 := by
    simp only [tangent]
    ring
  have hpull : (a.tangent d x).pull = a.exactWeight (exactProduct d x) * d := rfl
  have hlack : (a.tangent d x).lack = d ^ 2 / 4 - x.base * x.quote := rfl
  unfold Tangent.value Tangent.span at hvalue
  rw [hpull] at hvalue hscaled
  rw [hlack] at hvalue
  linarith

/-! ### The weight -/

/-- The weight, without its denominator. -/
theorem weight_mul_sq : a.exactWeight (exactProduct d x) * a.exactGap d x ^ 2 =
    a.amp.toRat * a.gamma.toRat ^ 2 * exactProduct d x := by
  have hgap := h.gap_pos hs
  unfold exactWeight
  change _ / a.exactGap d x ^ 2 * _ = _
  field_simp

theorem weight_pos : 0 < a.exactWeight (exactProduct d x) := by
  have hpull := (h.regular hs).pull_pos
  exact pos_of_mul_pos_left hpull h.pos.le

theorem weight_le : a.exactWeight (exactProduct d x) ≤ 10 ^ 6 := by
  have hgamma := hs.gamma_pos
  have hwide : (3 / 4 * a.gamma.toRat) ^ 2 ≤ a.exactGap d x ^ 2 :=
    pow_le_pow_left₀ (by positivity) h.gap_ge 2
  have hscaled := mul_le_mul_of_nonneg_left hwide (h.weight_pos hs).le
  have hfactor : a.amp.toRat * exactProduct d x ≤ 400000 * (201 / 200) :=
    mul_le_mul hs.amp_le (h.product_le_bound hs) (hs.product_pos h.pos).le (by norm_num)
  have hsq : 0 < a.gamma.toRat ^ 2 := by positivity
  refine le_of_mul_le_mul_right ?_ hsq
  rw [h.weight_mul_sq hs] at hscaled
  have hscaled' := mul_le_mul_of_nonneg_right hfactor hsq.le
  linarith

/-! ### Where the weight has to make up for the square -/

/-- Where `K₀` is small, the invariant is at most what the weight of the sum makes of it. -/
theorem size_le_of_product_le (hk : exactProduct d x ≤ 1 / 4) :
    d ≤ 25 * (a.amp.toRat * a.gamma.toRat ^ 2 * exactProduct d x * (x.base + x.quote)) := by
  have hd := h.pos
  have hsum : 0 < x.base + x.quote := by linarith [hs.base_ge, hs.quote_ge]
  have hshare := mul_le_of_le_one_left (sq_nonneg d)
    (exactShare_le_one (hs.product_pos hd) (h.gap_pos hs))
  have hweight : a.exactWeight (exactProduct d x) ≤
      16 / 9 * (a.amp.toRat * a.gamma.toRat ^ 2 * exactProduct d x) := by
    have hwide : (3 / 4) ^ 2 ≤ a.exactGap d x ^ 2 := by
      refine pow_le_pow_left₀ (by norm_num) ?_ 2
      unfold exactGap
      linarith [hs.gamma_pos]
    have hscaled := mul_le_mul_of_nonneg_left hwide (h.weight_pos hs).le
    rw [h.weight_mul_sq hs] at hscaled
    linarith
  have hpull : 7 / 96 * d ≤ a.exactWeight (exactProduct d x) * (x.base + x.quote) := by
    have hlack := h.lack_le hs
    have hkSq := mul_le_mul_of_nonneg_right hk (sq_nonneg d)
    rw [h.product_mul_sq] at hkSq
    refine le_of_mul_le_mul_right ?_ hd
    linarith
  have hscaled := mul_le_mul_of_nonneg_right hweight hsum.le
  linarith

theorem share_le_of_product_ge (hk : 1 / 4 ≤ exactProduct d x) :
    a.exactShare d x ≤ 4 / 7 * a.exactGap d x := by
  have hkPos := hs.product_pos h.pos
  have hgap := h.gap_pos hs
  have hwide : 7 / 4 ≤ a.exactGap d x + 4 * exactProduct d x := by
    unfold exactGap
    linarith [hs.gamma_pos]
  have hscaled := mul_le_mul_of_nonneg_left hwide (exactShare_pos hkPos hgap).le
  rw [exactShare_mul hkPos hgap] at hscaled
  linarith

/-- Where `K₀` is not small and the gap is wide beside the concentration, the gap is bounded by the
weight of the sum. -/
theorem gap_pow_le (hgap : 2 * a.gamma.toRat ≤ a.exactGap d x) (hk : 1 / 4 ≤ exactProduct d x) :
    a.exactGap d x ^ 3 * d ≤ 18 * (a.amp.toRat * a.gamma.toRat ^ 2 * (x.base + x.quote)) := by
  have hd := h.pos
  have hsum : 0 < x.base + x.quote := by linarith [hs.base_ge, hs.quote_ge]
  have hgapPos := h.gap_pos hs
  have hgamma := hs.gamma_pos
  have hamp : 0 < a.amp.toRat := by linarith [hs.amp_ge]
  have hkOne : exactProduct d x ≤ 1 := by
    unfold exactGap at hgap
    linarith
  have hshare := h.share_le_of_product_ge hs hk
  have hpull : 1 / 18 * (a.exactGap d x * d) ≤
      a.exactWeight (exactProduct d x) * (x.base + x.quote) := by
    have hlack := h.lack_le hs
    have hkSq : (1 - a.exactGap d x / 2) * d ^ 2 ≥ exactProduct d x * d ^ 2 := by
      refine mul_le_mul_of_nonneg_right ?_ (sq_nonneg d)
      unfold exactGap at hgap ⊢
      linarith
    have hshareSq := mul_le_mul_of_nonneg_right hshare (sq_nonneg d)
    have hgapSq := mul_pos hgapPos (pow_pos hd 2)
    rw [h.product_mul_sq] at hkSq
    refine le_of_mul_le_mul_right ?_ hd
    linarith
  have hscaled := mul_le_mul_of_nonneg_right hpull (sq_nonneg (a.exactGap d x))
  have hweight : a.exactWeight (exactProduct d x) * (x.base + x.quote) * a.exactGap d x ^ 2 ≤
      a.amp.toRat * a.gamma.toRat ^ 2 * (x.base + x.quote) := by
    calc a.exactWeight (exactProduct d x) * (x.base + x.quote) * a.exactGap d x ^ 2
        = a.amp.toRat * a.gamma.toRat ^ 2 * exactProduct d x * (x.base + x.quote) := by
          rw [← h.weight_mul_sq hs]
          ring
      _ ≤ a.amp.toRat * a.gamma.toRat ^ 2 * 1 * (x.base + x.quote) := by gcongr
      _ = a.amp.toRat * a.gamma.toRat ^ 2 * (x.base + x.quote) := by rw [mul_one]
  linarith

/-! ### The error of the weight, on the axis of the invariant -/

/-- The reach over `K₀`. -/
theorem reach_div_product_le : a.exactShare d x * d / exactProduct d x ≤ 4 * 10 ^ 11 := by
  have hd := h.pos
  have hk := hs.product_pos hd
  have hshare := mul_le_of_le_one_left hd.le (exactShare_le_one hk (h.gap_pos hs))
  have hsize := h.size_le hs
  rw [div_le_iff₀ hk]
  rcases le_total (exactProduct d x) (1 / 4) with hless | hmore
  · have hskewed := h.size_le_of_product_le hs hless
    have hbound : a.amp.toRat * a.gamma.toRat ^ 2 * (x.base + x.quote) ≤
        400000 * (1 / 50) ^ 2 * 10 ^ 8 := by
      have := hs.amp_le
      have := hs.gamma_le
      have := hs.sum_le
      have := hs.gamma_pos
      have := hs.base_ge
      have := hs.quote_ge
      gcongr
    have hscaled := mul_le_mul_of_nonneg_right hbound hk.le
    linarith
  · linarith

/-- The reach over the gap. -/
theorem reach_div_gap_le : a.exactShare d x * d / a.exactGap d x ≤ 9 / 8 * 10 ^ 8 := by
  have hshare := mul_le_mul_of_nonneg_right (h.share_le_gap hs) h.pos.le
  rw [div_le_iff₀ (h.gap_pos hs)]
  have hsize := mul_le_mul_of_nonneg_left (h.size_le hs) (h.gap_pos hs).le
  linarith

/-- Where `K₀` is small, the invariant is bounded by the concentration. -/
theorem size_le_gamma (hk : exactProduct d x ≤ 1 / 4) :
    d ≤ 17 / 10 * 10 ^ 11 * a.gamma.toRat := by
  have hd := h.pos
  have hproduct := hs.product_pos hd
  have hgamma := hs.gamma_pos
  have hamp := hs.amp_pos
  have hsize := h.size_le hs
  have hsum : 0 < x.base + x.quote := by linarith [hs.base_ge, hs.quote_ge]
  -- One factor of the square by the bound with `γ`, the other by the bound without.
  have hsq : d ^ 2 ≤ (17 / 10 * 10 ^ 11 * a.gamma.toRat) ^ 2 := by
    calc d ^ 2 = d * d := sq d
      _ ≤ 25 * (a.amp.toRat * a.gamma.toRat ^ 2 * exactProduct d x * (x.base + x.quote)) *
          (9 / 8 * 10 ^ 8) := by
          have := h.size_le_of_product_le hs hk
          gcongr
      _ ≤ 25 * (400000 * a.gamma.toRat ^ 2 * (1 / 4) * 10 ^ 8) * (9 / 8 * 10 ^ 8) := by
          have := hs.amp_le
          have := hs.sum_le
          gcongr
      _ ≤ (17 / 10 * 10 ^ 11 * a.gamma.toRat) ^ 2 := by linarith [sq_nonneg a.gamma.toRat]
  exact le_of_sq_le_sq hsq (by positivity)

/-- Where `K₀` is not small and the gap is wide beside the concentration, the square of the gap,
on the scale of the invariant, is bounded by the concentration. -/
theorem gap_sq_mul_size_le (hgap : 2 * a.gamma.toRat ≤ a.exactGap d x)
    (hk : 1 / 4 ≤ exactProduct d x) :
    a.exactGap d x ^ 2 * d ≤ 11 / 10 * 10 ^ 12 * a.gamma.toRat := by
  have hd := h.pos
  have hgapPos := h.gap_pos hs
  have hgamma := hs.gamma_pos
  have hamp := hs.amp_pos
  have hsize := h.size_le hs
  have hsum : 0 < x.base + x.quote := by linarith [hs.base_ge, hs.quote_ge]
  have hcube : (a.exactGap d x ^ 2 * d) ^ 3 ≤ (11 / 10 * 10 ^ 12 * a.gamma.toRat) ^ 3 := by
    calc (a.exactGap d x ^ 2 * d) ^ 3 = (a.exactGap d x ^ 3 * d) ^ 2 * d := by ring
      _ ≤ (18 * (a.amp.toRat * a.gamma.toRat ^ 2 * (x.base + x.quote))) ^ 2 *
          (9 / 8 * 10 ^ 8) := by
          have := h.gap_pow_le hs hgap hk
          gcongr
      _ ≤ (18 * (400000 * a.gamma.toRat ^ 2 * 10 ^ 8)) ^ 2 * (9 / 8 * 10 ^ 8) := by
          have := hs.amp_le
          have := hs.sum_le
          gcongr
      _ = 18 ^ 2 * 400000 ^ 2 * 10 ^ 16 * (9 / 8 * 10 ^ 8) *
          (a.gamma.toRat * a.gamma.toRat ^ 3) := by ring
      _ ≤ 18 ^ 2 * 400000 ^ 2 * 10 ^ 16 * (9 / 8 * 10 ^ 8) * (1 / 50 * a.gamma.toRat ^ 3) := by
          have := hs.gamma_le
          gcongr
      _ ≤ (11 / 10 * 10 ^ 12 * a.gamma.toRat) ^ 3 := by linarith [pow_pos hgamma 3]
  exact le_of_pow_le_pow_left₀ three_ne_zero (by positivity) hcube

/-- The reach times the gap, over the concentration. -/
theorem reach_mul_gap_le :
    a.exactShare d x * d * a.exactGap d x ≤ 7 / 10 * 10 ^ 12 * a.gamma.toRat := by
  have hd := h.pos
  have hgap := h.gap_pos hs
  have hgamma := hs.gamma_pos
  have hsize := h.size_le hs
  have hshare := mul_le_of_le_one_left hd.le (exactShare_le_one (hs.product_pos hd) hgap)
  rcases le_total (exactProduct d x) (1 / 4) with hless | hmore
  · have hroot := h.size_le_gamma hs hless
    have hscaled := mul_le_mul hshare (h.gap_le hs) hgap.le hd.le
    linarith
  rcases le_total (a.exactGap d x) (2 * a.gamma.toRat) with hnarrow | hwide
  · have hscaled := mul_le_mul (hshare.trans hsize) hnarrow hgap.le (by norm_num)
    linarith
  · have hroot := h.gap_sq_mul_size_le hs hwide hmore
    have hscaled := mul_le_mul_of_nonneg_right (h.share_le_of_product_ge hs hmore)
      (mul_pos hd hgap).le
    linarith

/-- The error of the weight moves a step by no more than five millionths of a unit. -/
theorem weightError_mul_reach_le :
    a.weightError d x * (a.exactShare d x * d) ≤ 5 / 10 ^ 6 := by
  have hgamma := hs.gamma_pos
  have hfirst := h.reach_div_product_le hs
  have hsecond := h.reach_div_gap_le hs
  have hthird : a.exactShare d x * d * a.exactGap d x / a.gamma.toRat ≤ 7 / 10 * 10 ^ 12 :=
    (div_le_iff₀ hgamma).mpr (h.reach_mul_gap_le hs)
  have hexpand : a.weightError d x * (a.exactShare d x * d) =
      1 / 10 ^ 18 * (801 / 100 * (a.exactShare d x * d / exactProduct d x) +
        1801 / 100 * (a.exactShare d x * d / a.exactGap d x) +
        201 / 100 * (a.exactShare d x * d * a.exactGap d x / a.gamma.toRat)) := by
    rw [weightError, Decimal.ulp_eq]
    ring
  rw [hexpand]
  linarith

theorem weightError_nonneg : 0 ≤ a.weightError d x := by
  have hgamma := hs.gamma_pos
  have hk := hs.product_pos h.pos
  have hgap := h.gap_pos hs
  have hulp := Decimal.ulp_nonneg
  unfold weightError
  positivity

theorem weightError_le : a.weightError d x ≤ 2 / 10 ^ 9 := by
  have hgamma := hs.gamma_pos
  have hk := hs.product_pos h.pos
  have hgap := h.gap_pos hs
  have hfirst : 801 / 100 / exactProduct d x ≤ 801 / 100 * 10 ^ 8 := by
    rw [div_le_iff₀ hk]
    linarith [h.product_ge hs]
  have hsecond : 1801 / 100 / a.exactGap d x ≤ 25 * 10 ^ 7 := by
    rw [div_le_iff₀ hgap]
    linarith [h.gap_ge_small hs]
  have hthird : 201 / 100 * a.exactGap d x / a.gamma.toRat ≤ 21 * 10 ^ 6 := by
    rw [div_le_iff₀ hgamma]
    linarith [h.gap_le hs, hs.gamma_ge]
  rw [weightError, Decimal.ulp_eq]
  linarith

/-! ### The derivative -/

theorem span_eq : (a.tangent d x).span = a.exactShare d x * d * -a.exactSlope d x :=
  tangent_span (hs.product_pos h.pos) (h.gap_pos hs)

/-- `F` falls, at least by most of the weight and half of the invariant. -/
theorem neg_slope_ge : 9 / 10 * (a.exactWeight (exactProduct d x) * d) + d / 2 ≤
    -a.exactSlope d x := by
  have hgap := h.gap_pos hs
  have hdecay := one_lt_exactDecay (hs.product_pos h.pos) hgap
  have hroom : -(d / 10) ≤ (x.base + x.quote - d) * a.exactDecay d x := by
    have hscaled := mul_le_mul_of_nonneg_right h.room_ge (one_pos.trans hdecay).le
    have hone : a.exactShare d x * a.exactDecay d x = 1 :=
      one_div_mul_cancel (one_pos.trans hdecay).ne'
    calc -(d / 10) = -(a.exactShare d x * a.exactDecay d x * d / 10) := by rw [hone, one_mul]
      _ = -(a.exactShare d x * d / 10) * a.exactDecay d x := by ring
      _ ≤ (x.base + x.quote - d) * a.exactDecay d x := hscaled
  have hscaled := mul_le_mul_of_nonneg_left hroom (h.weight_pos hs).le
  rw [neg_exactSlope hgap.ne']
  linarith

theorem neg_slope_pos : 0 < -a.exactSlope d x := by
  have hweight := mul_pos (h.weight_pos hs) h.pos
  linarith [h.neg_slope_ge hs, h.pos]

theorem abs_room_le : |x.base + x.quote - d| ≤ 10 ^ 4 * d := by
  have hless := h.size_le_sum hs
  have hd := h.pos
  rw [abs_le]
  constructor
  · linarith
  · linarith [h.sum_le_mul hs]

/-- The coefficient's part of `F` is at most the span. -/
theorem pull_room_le : a.exactWeight (exactProduct d x) * (d * |x.base + x.quote - d|) ≤
    a.exactShare d x * d * -a.exactSlope d x := by
  have hweight := h.weight_pos hs
  have hd := h.pos
  have hshare := exactShare_pos (hs.product_pos hd) (h.gap_pos hs)
  have hroom := h.room_ge
  have hbound : |x.base + x.quote - d| ≤ x.base + x.quote - d + a.exactShare d x * d := by
    have hreach := mul_pos hshare hd
    simp only [tangent] at hroom
    rw [abs_le]
    constructor
    · linarith
    · linarith
  have hscaled := mul_le_mul_of_nonneg_left hbound (mul_pos hweight hd).le
  have hsquare : 0 < a.exactShare d x * d * d / 2 := by positivity
  rw [← h.span_eq hs]
  simp only [tangent, Tangent.span, exactPull]
  linarith

/-- The same with the gap in the place of the reach. -/
theorem weight_room_le : a.exactWeight (exactProduct d x) * |x.base + x.quote - d| ≤
    -a.exactSlope d x * a.exactGap d x := by
  have hd := h.pos
  have hbound := h.pull_room_le hs
  have hscaled := mul_le_mul_of_nonneg_right (h.share_le_gap hs)
    (mul_pos hd (h.neg_slope_pos hs)).le
  refine le_of_mul_le_mul_right ?_ hd
  linarith

/-- The weight over the gap, on the scale of the room. -/
theorem weight_room_div_le : a.exactWeight (exactProduct d x) * |x.base + x.quote - d| /
    a.exactGap d x ≤ -a.exactSlope d x :=
  (div_le_iff₀ (h.gap_pos hs)).mpr (h.weight_room_le hs)

theorem ulp_div_gap_le : Decimal.ulp / a.exactGap d x ≤ 14 / 10 ^ 12 := by
  rw [div_le_iff₀ (h.gap_pos hs), Decimal.ulp_eq]
  linarith [h.gap_ge_small hs]

/-! ### What the error of the weight comes to -/

/-- What the error of how fast the weight changes comes to in the derivative. -/
theorem rise_error_le : ((5 * Decimal.ulp + 41 / 10 *
      (a.weightError d x * a.exactWeight (exactProduct d x) + 5 * Decimal.ulp)) / a.exactGap d x +
      34 * Decimal.ulp * a.exactWeight (exactProduct d x) / a.exactGap d x ^ 2) *
        |x.base + x.quote - d| ≤ 8 / 10 ^ 6 * -a.exactSlope d x := by
  have hd := h.pos
  have hgap := h.gap_pos hs
  have hslope := h.neg_slope_ge hs
  have hweight := h.weight_pos hs
  have hpull := mul_pos hweight hd
  have hover := h.weight_room_div_le hs
  have hfine := h.ulp_div_gap_le hs
  have hunits : (5 * Decimal.ulp + 41 / 10 * (5 * Decimal.ulp)) / a.exactGap d x *
      |x.base + x.quote - d| ≤ 51 / 2 * (14 / 10 ^ 12 * (10 ^ 4 * d)) := by
    have hscaled := mul_le_mul hfine (h.abs_room_le hs) (abs_nonneg _) (by norm_num)
    calc (5 * Decimal.ulp + 41 / 10 * (5 * Decimal.ulp)) / a.exactGap d x *
          |x.base + x.quote - d|
        = 51 / 2 * (Decimal.ulp / a.exactGap d x * |x.base + x.quote - d|) := by ring
      _ ≤ 51 / 2 * (14 / 10 ^ 12 * (10 ^ 4 * d)) := by linarith
  have hrelative := mul_le_mul (h.weightError_le hs) hover (by positivity) (by norm_num)
  have hgapUnits := mul_le_mul hfine hover (by positivity) (by norm_num)
  rw [rise_error_eq _ _ _ hgap.ne']
  linarith

section Error

variable {w : ℚ} (hw : |w - a.exactWeight (exactProduct d x)| ≤
  a.weightError d x * a.exactWeight (exactProduct d x) + 5 * Decimal.ulp)
include hw

theorem abs_weight_le : |w| ≤ 2 * -a.exactSlope d x := by
  have hweight := h.weight_pos hs
  have hslope := h.neg_slope_ge hs
  have hd := h.size_ge hs
  have htriangle : |w| ≤ |w - a.exactWeight (exactProduct d x)| +
      |a.exactWeight (exactProduct d x)| := by
    simpa using abs_add_le (w - a.exactWeight (exactProduct d x)) (a.exactWeight (exactProduct d x))
  have hpull := mul_le_mul_of_nonneg_left hd hweight.le
  have hrelative := mul_le_mul_of_nonneg_right (h.weightError_le hs) hweight.le
  rw [abs_of_pos hweight] at htriangle
  rw [Decimal.ulp_eq] at hw
  linarith

/-- The error of `F`, with the bound that `residual_error` gives. -/
theorem residual_error_le : Decimal.ulp * (x.base + x.quote + |w| + 5) +
    |w - a.exactWeight (exactProduct d x)| * (d * |x.base + x.quote - d|) ≤
      6 / 10 ^ 6 * -a.exactSlope d x := by
  have hd := h.pos
  have hlarge := h.size_ge hs
  have hslope := h.neg_slope_ge hs
  have hslopePos := h.neg_slope_pos hs
  have hpull := mul_pos (h.weight_pos hs) hd
  have hwLe := h.abs_weight_le hs hw
  have hdistance : 0 ≤ d * |x.base + x.quote - d| := mul_nonneg hd.le (abs_nonneg _)
  have hscaled := mul_le_mul_of_nonneg_right hw hdistance
  have hrelative := mul_le_mul_of_nonneg_left (h.pull_room_le hs)
    (h.weightError_nonneg hs)
  have haxis := mul_le_mul_of_nonneg_right (h.weightError_mul_reach_le hs) hslopePos.le
  have hroom : |x.base + x.quote - d| ≤ 10 ^ 8 := by
    have hless := h.size_le_sum hs
    rw [abs_le]
    constructor
    · linarith [hs.sum_le, h.size_le hs]
    · linarith [hs.sum_le]
  have hlast := mul_le_mul_of_nonneg_left hroom hd.le
  have hsum := h.sum_le_mul hs
  rw [Decimal.ulp_eq] at *
  linarith

/-- What the error of the weight comes to in the derivative. -/
theorem weight_change_le : |w - a.exactWeight (exactProduct d x)| * (|x.base + x.quote - d| + d) ≤
    1 / 10 ^ 8 * -a.exactSlope d x := by
  have hd := h.pos
  have hlarge := h.size_ge hs
  have hslope := h.neg_slope_ge hs
  have hslopePos := h.neg_slope_pos hs
  have hweight := h.weight_pos hs
  have hroom := h.abs_room_le hs
  have hroomNonneg := abs_nonneg (x.base + x.quote - d)
  have hscaled := mul_le_mul_of_nonneg_right hw (add_nonneg hroomNonneg hd.le)
  have hover : a.weightError d x * (a.exactWeight (exactProduct d x) * |x.base + x.quote - d|) ≤
      2 / 10 ^ 9 * (-a.exactSlope d x * (51 / 50)) := by
    refine mul_le_mul (h.weightError_le hs) ((h.weight_room_le hs).trans ?_) (by positivity)
      (by norm_num)
    exact mul_le_mul_of_nonneg_left (h.gap_le hs) hslopePos.le
  have hsize := mul_le_mul_of_nonneg_right (h.weightError_le hs) (mul_pos hweight hd).le
  rw [Decimal.ulp_eq] at *
  linarith

/-- The error of the derivative, with the bound that `slope_error` gives. -/
theorem slope_error_le : ((5 * Decimal.ulp + 41 / 10 *
      (a.weightError d x * a.exactWeight (exactProduct d x) + 5 * Decimal.ulp)) / a.exactGap d x +
      34 * Decimal.ulp * a.exactWeight (exactProduct d x) / a.exactGap d x ^ 2) *
        |x.base + x.quote - d| +
    |w - a.exactWeight (exactProduct d x)| * (|x.base + x.quote - d| + d) +
    Decimal.ulp * (3 + d) ≤ 1 / 10 ^ 5 * -a.exactSlope d x := by
  have hrise := h.rise_error_le hs
  have hchange := h.weight_change_le hs hw
  have hslopePos := h.neg_slope_pos hs
  have hlast : Decimal.ulp * (3 + d) ≤ 1 / 10 ^ 6 * -a.exactSlope d x := by
    have hpull := mul_pos (h.weight_pos hs) h.pos
    rw [Decimal.ulp_eq]
    linarith [h.neg_slope_ge hs, h.size_ge hs]
  linarith

end Error

end Basin

end AmpGamma

end ConcentratedPool
