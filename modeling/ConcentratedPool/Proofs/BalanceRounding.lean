import ConcentratedPool.Proofs.BalanceSecants
import ConcentratedPool.Proofs.CurveRounding

/-!
# The curve along a balance in eighteen places

The solver of a balance evaluates `F` and its derivative by that balance, and rounds after each
operation. Divided by `AmpGamma.balanceTilt`, the terms of the derivative, the error of `F` is a
distance on the axis of the balance, and that of the derivative a relative one.

`AmpGamma.ResolvedBalance` collects what keeps the errors small: the square of the invariant is at
most `10¹²` times `γ` and the other balance, and the invariant times the sum of the balances about
`10¹²` times the other balance. Then `F` is computed to a fiftieth of the tolerance and its
derivative to a fiftieth of itself (`AmpGamma.ResolvedBalance.residual_near`,
`AmpGamma.ResolvedBalance.slope_near`), so that a computed step follows the exact tangent
(`AmpGamma.ResolvedBalance.tangent_of_quotient`).
-/

set_option autoImplicit false
set_option relaxedAutoImplicit false

namespace ConcentratedPool

/-! ### The derivative -/

section Lift

variable {g k gap gap' p w W y E u scaled den rise : ℚ}

/-- The divisor of the derivative, relative to the exact one. -/
theorem divisor_near (hu : 0 < u) (hy : 0 < y) (hfine : u ≤ gap / 600000)
    (hflat : 13 / 1000 ≤ gap * y) (huSmall : u ≤ 1 / 10 ^ 18) (hgap' : |gap' - gap| ≤ 8 * u)
    (hden : |den - gap' * y| ≤ u) : |den - gap * y| ≤ 1 / 50000 * (gap * y) := by
  have hsplit : den - gap * y = (den - gap' * y) + (gap' - gap) * y := by ring
  have hmoved : |(gap' - gap) * y| ≤ 8 * (gap / 600000) * y := by
    rw [abs_mul, abs_of_pos hy]
    exact mul_le_mul_of_nonneg_right (by linarith) hy.le
  rw [hsplit]
  refine (abs_add_le _ _).trans ?_
  linarith

/-- The numerator of how fast the weight changes, with the errors of the weight and of `K₀`. -/
theorem lift_numerator_near (hW : 0 ≤ W) (hg : g ≤ 51 / 50) (hg0 : 0 ≤ g) (hk : 0 < k)
    (hkOne : k ≤ 51 / 50) (hE : |w - W| ≤ E) (hp : |p - k| ≤ 8 * u) (huSmall : u ≤ 1 / 10 ^ 18)
    (hscaled : |scaled - w * (g + p)| ≤ u) :
    |scaled - W * (g + k)| ≤ u + 41 / 20 * E + 8 * u * W := by
  obtain ⟨hpLow, hpHigh⟩ := abs_le.mp hp
  have hgrown : |g + p| ≤ 41 / 20 := by
    rw [abs_le]
    constructor
    · linarith
    · linarith
  have hsplit : scaled - W * (g + k) =
      (scaled - w * (g + p)) + (w - W) * (g + p) + W * (p - k) := by ring
  have hsecond : |(w - W) * (g + p)| ≤ E * (41 / 20) := by
    rw [abs_mul]
    exact mul_le_mul hE hgrown (abs_nonneg _) ((abs_nonneg _).trans hE)
  have hthird : |W * (p - k)| ≤ W * (8 * u) := by
    rw [abs_mul, abs_of_nonneg hW]
    exact mul_le_mul_of_nonneg_left hp hW
  rw [hsplit]
  calc |scaled - w * (g + p) + (w - W) * (g + p) + W * (p - k)|
      ≤ |scaled - w * (g + p)| + |(w - W) * (g + p)| + |W * (p - k)| := abs_add_three _ _ _
    _ ≤ u + E * (41 / 20) + W * (8 * u) := add_le_add (add_le_add hscaled hsecond) hthird
    _ = u + 41 / 20 * E + 8 * u * W := by ring

/-- A quotient whose divisor has a relative error and whose numerator has an absolute one. -/
theorem div_near {n N B e e' : ℚ} (hB : 0 < B) (hN : 0 ≤ N)
    (hden : |den - B| ≤ 1 / 50000 * B) (hn : |n - N| ≤ e) (he : e ≤ 49999 / 50000 * e') :
    |n / den - N / B| ≤ e' / B + 1 / 40000 * (N / B) := by
  obtain ⟨hdenLow, hdenHigh⟩ := abs_le.mp hden
  have hdenWide : 49999 / 50000 * B ≤ den := by linarith
  have hdenPos : 0 < den := by linarith
  have heNonneg : 0 ≤ e := (abs_nonneg _).trans hn
  have hfirst : |(n - N) / den| ≤ e' / B := by
    rw [abs_div, abs_of_pos hdenPos, div_le_div_iff₀ hdenPos hB]
    have hscaled := mul_le_mul_of_nonneg_right (hn.trans he) hB.le
    have hwide := mul_le_mul_of_nonneg_left hdenWide (by linarith : 0 ≤ e')
    linarith
  have hsecond : |N / den - N / B| ≤ 1 / 40000 * (N / B) := by
    have hdiff : N / den - N / B = N / B * ((B - den) / den) := by
      field_simp
    have hrelative : |(B - den) / den| ≤ 1 / 40000 := by
      rw [abs_div, abs_of_pos hdenPos, div_le_iff₀ hdenPos, abs_sub_comm]
      linarith
    rw [hdiff, abs_mul, abs_of_nonneg (div_nonneg hN hB.le), mul_comm]
    exact mul_le_mul_of_nonneg_right hrelative (div_nonneg hN hB.le)
  have hsplit : n / den - N / B = (n - N) / den + (N / den - N / B) := by ring
  rw [hsplit]
  exact (abs_add_le _ _).trans (add_le_add hfirst hsecond)

/-- How fast the weight changes with the balance. The error of the weight, that of `K₀` and the
roundings count as much as the divisor is small, and that of the divisor is a relative one. -/
theorem lift_near (hu : 0 < u) (hW : 0 ≤ W) (hg : g ≤ 51 / 50) (hk : 0 < k) (hkOne : k ≤ 51 / 50)
    (hg0 : 0 ≤ g) (hB : 0 < gap * y) (hE : |w - W| ≤ E) (hp : |p - k| ≤ 8 * u)
    (huSmall : u ≤ 1 / 10 ^ 18) (hscaled : |scaled - w * (g + p)| ≤ u)
    (hden : |den - gap * y| ≤ 1 / 50000 * (gap * y)) (hrise : |rise - scaled / den| ≤ u) :
    |rise - W * (g + k) / (gap * y)| ≤
      u + (2 * u + 21 / 10 * E + 9 * u * W) / (gap * y) +
        1 / 40000 * (W * (g + k) / (gap * y)) := by
  have hnumerator := lift_numerator_near hW hg hg0 hk hkOne hE hp huSmall hscaled
  have hroom : u + 41 / 20 * E + 8 * u * W ≤
      49999 / 50000 * (2 * u + 21 / 10 * E + 9 * u * W) := by
    have hEnonneg : 0 ≤ E := (abs_nonneg _).trans hE
    have huW : 0 ≤ u * W := mul_nonneg hu.le hW
    linarith
  have hquotient := div_near hB (mul_nonneg hW (by linarith)) hden hnumerator hroom
  calc |rise - W * (g + k) / (gap * y)|
      ≤ |rise - scaled / den| + |scaled / den - W * (g + k) / (gap * y)| := abs_sub_le _ _ _
    _ ≤ u + ((2 * u + 21 / 10 * E + 9 * u * W) / (gap * y) +
          1 / 40000 * (W * (g + k) / (gap * y))) := add_le_add hrise hquotient
    _ = _ := (add_assoc _ _ _).symm

/-- The roundings of the derivative, with those of the weight and of how fast it changes. -/
theorem slopeBalance_rounded {L d room once lifted pull x : ℚ} (hd : 0 < d)
    (honce : |once - rise * d| ≤ u) (hlifted : |lifted - once * room| ≤ u)
    (hpull : |pull - w * d| ≤ u) :
    |lifted + pull + x - (L * d * room + W * d + x)| ≤
      |rise - L| * (d * |room|) + |w - W| * d + u * (|room| + 2) := by
  have hsplit : lifted + pull + x - (L * d * room + W * d + x) =
      (rise - L) * (d * room) + (w - W) * d + (once - rise * d) * room +
        ((lifted - once * room) + (pull - w * d)) := by ring
  have hfirst : |(rise - L) * (d * room)| = |rise - L| * (d * |room|) := by
    rw [abs_mul, abs_mul d, abs_of_pos hd]
  have hsecond : |(w - W) * d| = |w - W| * d := by rw [abs_mul, abs_of_pos hd]
  have hthird : |(once - rise * d) * room| ≤ u * |room| := by
    rw [abs_mul]
    exact mul_le_mul_of_nonneg_right honce (abs_nonneg _)
  have hlast : |(lifted - once * room) + (pull - w * d)| ≤ u + u :=
    (abs_add_le _ _).trans (add_le_add hlifted hpull)
  rw [hsplit]
  refine (abs_add_le _ _).trans ?_
  have hthree := abs_add_three ((rise - L) * (d * room)) ((w - W) * d) ((once - rise * d) * room)
  linarith

end Lift

/-! ### Where eighteen places are enough -/

namespace AmpGamma

/-- Eighteen places are enough around the balance `y`: the curve is straight there on the scale of
the tolerance, the parameters are in range, the invariant is at least one, and neither the sum of
the balances nor the invariant is too large beside the other balance. -/
structure ResolvedBalance (a : AmpGamma) (d x y : ℚ) : Prop where
  straight : a.StraightBalance Limits.tolerance.toRat d x y
  amp_ge : 2 / 5 ≤ a.amp.toRat
  gamma_ge : 1 / 10 ^ 7 ≤ a.gamma.toRat
  large : 1 ≤ d
  reach_le : d * (x + y) ≤ 11 / 10 * 10 ^ 12 * x
  size_le : d ^ 2 ≤ 10 ^ 12 * (a.gamma.toRat * x)

namespace ResolvedBalance

variable {a : AmpGamma} {d x y : ℚ} (h : a.ResolvedBalance d x y)
include h

theorem gamma_pos : 0 < a.gamma.toRat := lt_of_lt_of_le (by norm_num) h.gamma_ge

/-- The gap times the balance is at least thirteen tolerances. -/
theorem flat : 13 / 1000 ≤ a.exactGap d ⟨x, y⟩ * y := by
  have hflat := h.straight.flat
  rw [Limits.tolerance_toRat] at hflat
  linarith

/-- The invariant is small beside the other balance. -/
theorem invariant_le : d ≤ 2 * 10 ^ 10 * x := by
  have hgamma := mul_le_mul_of_nonneg_right h.straight.gamma_le h.straight.other_pos.le
  have hsq : d ≤ d ^ 2 := by
    rw [pow_two]
    exact le_mul_of_one_le_left h.straight.invariant_pos.le h.large
  linarith [h.size_le]

/-- The invariant times its distance from the sum is small beside the other balance. -/
theorem distance_le : d * |x + y - d| ≤ 112 / 100 * 10 ^ 12 * x := by
  have hd := h.straight.invariant_pos
  have hsum : 0 ≤ x + y := (add_pos h.straight.other_pos h.straight.pos).le
  have hgamma := mul_le_mul_of_nonneg_right h.straight.gamma_le h.straight.other_pos.le
  have hfar : |x + y - d| ≤ (x + y) + d := by
    rw [abs_le]
    constructor
    · linarith
    · linarith
  have hscaled := mul_le_mul_of_nonneg_left hfar hd.le
  linarith [h.reach_le, h.size_le, h.straight.other_pos]

/-- The balance is not too large itself. -/
theorem balance_le : y ≤ 51 / 200 * (10 ^ 12 * a.gamma.toRat) := by
  have hd := h.straight.invariant_pos
  have hx := h.straight.other_pos
  have hproduct : 4 * (x * y) ≤ 51 / 50 * d ^ 2 :=
    (div_le_iff₀ (by positivity)).mp h.straight.product_le
  refine le_of_mul_le_mul_left ?_ hx
  linarith [h.size_le]

/-- The gap is far above one unit of the last place. -/
theorem ulp_le_gap : Decimal.ulp ≤ a.exactGap d ⟨x, y⟩ / 600000 := by
  have hbalance := mul_le_mul_of_nonneg_left h.balance_le h.straight.gap_pos.le
  have hgamma := mul_le_mul_of_nonneg_left h.straight.gamma_le h.straight.gap_pos.le
  rw [Decimal.ulp_eq]
  linarith [h.flat]

/-- The concentration is far above one unit of the last place. -/
theorem ulp_mul_gap_le : Decimal.ulp * a.exactGap d ⟨x, y⟩ ≤ a.gamma.toRat / 900000 := by
  rw [Decimal.ulp_eq]
  linarith [h.gamma_ge, h.straight.gap_le]

/-- The balance is `K₀` times a quarter of some multiple of `γ`, which is bounded. -/
theorem exists_balance_factor : ∃ e, 0 < e ∧ e ≤ 10 ^ 12 ∧
    y = e * a.gamma.toRat / 4 * exactProduct d ⟨x, y⟩ := by
  have hd := h.straight.invariant_pos
  have hx := h.straight.other_pos
  have hγ := h.gamma_pos
  have hcapital : 0 < a.gamma.toRat * x := mul_pos hγ hx
  refine ⟨d ^ 2 / (a.gamma.toRat * x), by positivity, (div_le_iff₀ hcapital).mpr h.size_le, ?_⟩
  unfold exactProduct
  field_simp

/-- What the three relative errors of the weight come to on the axis of the balance. -/
theorem weight_error_le : Decimal.ulp * (11 / exactProduct d ⟨x, y⟩ + 19 / a.exactGap d ⟨x, y⟩ +
    5 * a.exactGap d ⟨x, y⟩ / (exactProduct d ⟨x, y⟩ * a.gamma.toRat)) *
      (a.exactGap d ⟨x, y⟩ * y) ≤ 2 / 10 ^ 6 := by
  obtain ⟨e, hePos, heLe, hy⟩ := h.exists_balance_factor
  have hk := h.straight.product_pos
  have hγ := h.gamma_pos
  have hgap := h.straight.gap_pos
  have hgapOne := h.straight.gap_le
  have hγOne := h.straight.gamma_le
  have hbalance := h.balance_le
  rw [Decimal.ulp_eq]
  generalize exactProduct d ⟨x, y⟩ = k at *
  generalize a.exactGap d ⟨x, y⟩ = gap at *
  generalize a.gamma.toRat = γ at *
  have hexpand : 1 / 10 ^ 18 * (11 / k + 19 / gap + 5 * gap / (k * γ)) * (gap * y) =
      1 / 10 ^ 18 * (11 / 4 * (e * (γ * gap)) + 19 * y + 5 / 4 * (e * gap ^ 2)) := by
    have hfirst : 11 / k * (gap * y) = 11 / 4 * (e * (γ * gap)) := by
      rw [hy]
      field_simp
    have hthird : 5 * gap / (k * γ) * (gap * y) = 5 / 4 * (e * gap ^ 2) := by
      rw [hy]
      field_simp
    have hsecond : 19 / gap * (gap * y) = 19 * y := by field_simp
    rw [mul_assoc, add_mul, add_mul, hfirst, hsecond, hthird]
  have hγgap : γ * gap ≤ 1 / 50 * (51 / 50) := mul_le_mul hγOne hgapOne hgap.le (by norm_num)
  have hgapSq : gap ^ 2 ≤ (51 / 50) ^ 2 := pow_le_pow_left₀ hgap.le hgapOne 2
  have hfirst : e * (γ * gap) ≤ 10 ^ 12 * (1 / 50 * (51 / 50)) :=
    mul_le_mul heLe hγgap (by positivity) (by norm_num)
  have hthird : e * gap ^ 2 ≤ 10 ^ 12 * (51 / 50) ^ 2 :=
    mul_le_mul heLe hgapSq (by positivity) (by norm_num)
  rw [hexpand]
  linarith

/-- The terms of the derivative bound the weight, taken with the distance from the sum of the
balances and over the gap and the balance. -/
theorem weight_mul_le : a.exactWeight (exactProduct d ⟨x, y⟩) * (d * |x + y - d|) ≤
    a.balanceTilt d x y * (a.exactGap d ⟨x, y⟩ * y) := by
  have hB : 0 < a.exactGap d ⟨x, y⟩ * y := mul_pos h.straight.gap_pos h.straight.pos
  have hweight := a.exactWeight_nonneg h.straight.product_pos.le
  have hdistance : 0 ≤ d * |x + y - d| := mul_nonneg h.straight.invariant_pos.le (abs_nonneg _)
  have hgrowth : 1 ≤ a.gamma.toRat + 1 + exactProduct d ⟨x, y⟩ := by
    linarith [h.gamma_pos, h.straight.product_pos]
  have hlift : a.exactLift d x y * (a.exactGap d ⟨x, y⟩ * y) =
      a.exactWeight (exactProduct d ⟨x, y⟩) * (a.gamma.toRat + 1 + exactProduct d ⟨x, y⟩) :=
    div_mul_cancel₀ _ hB.ne'
  have hterm : a.exactWeight (exactProduct d ⟨x, y⟩) * (d * |x + y - d|) ≤
      a.exactLift d x y * (a.exactGap d ⟨x, y⟩ * y) * (d * |x + y - d|) := by
    rw [hlift]
    exact mul_le_mul_of_nonneg_right (le_mul_of_one_le_right hweight hgrowth) hdistance
  have hrest := mul_nonneg h.straight.pull_nonneg hB.le
  have hother := mul_nonneg h.straight.other_pos.le hB.le
  unfold balanceTilt
  linarith

theorem tilt_ge : a.exactPull d ⟨x, y⟩ + x ≤ a.balanceTilt d x y := by
  have hlift := mul_nonneg (mul_nonneg h.straight.lift_nonneg h.straight.invariant_pos.le)
    (abs_nonneg (x + y - d))
  unfold balanceTilt
  linarith

theorem weight_le_pull : a.exactWeight (exactProduct d ⟨x, y⟩) ≤ a.exactPull d ⟨x, y⟩ :=
  le_mul_of_one_le_right (a.exactWeight_nonneg h.straight.product_pos.le) h.large

section Weight

variable {ε : ℚ} (hε : 0 ≤ ε) (hεAxis : ε * (a.exactGap d ⟨x, y⟩ * y) ≤ 2 / 10 ^ 6)
include hε hεAxis

/-- A part of the weight that is so small on the axis of the balance is itself small. -/
theorem part_le : ε ≤ 1 / 5000 := by
  have hflat := mul_le_mul_of_nonneg_left h.flat hε
  linarith

variable {w : ℚ} (hw : |w - a.exactWeight (exactProduct d ⟨x, y⟩)| ≤
  ε * a.exactWeight (exactProduct d ⟨x, y⟩) + Decimal.ulp)
include hw

/-- The roundings of `F`, with that of the weight. -/
theorem residual_error_le : Decimal.ulp * (x + y + |w| + 5) +
    |w - a.exactWeight (exactProduct d ⟨x, y⟩)| * (d * |x + y - d|) ≤
      a.balanceTilt d x y / 50000 := by
  have hweight := a.exactWeight_nonneg h.straight.product_pos.le
  have hwLe : |w| ≤ 2 * a.exactWeight (exactProduct d ⟨x, y⟩) + Decimal.ulp := by
    have hpart := mul_le_mul_of_nonneg_right (h.part_le hε hεAxis) hweight
    have htriangle := abs_sub_abs_le_abs_sub w (a.exactWeight (exactProduct d ⟨x, y⟩))
    rw [abs_of_nonneg hweight] at htriangle
    linarith
  have hdistance : 0 ≤ d * |x + y - d| := mul_nonneg h.straight.invariant_pos.le (abs_nonneg _)
  have hscaled := mul_le_mul_of_nonneg_right hw hdistance
  have hrelative := mul_le_mul_of_nonneg_left h.weight_mul_le hε
  have haxis := mul_le_mul_of_nonneg_right hεAxis h.straight.tilt_pos.le
  have hsum : x + y ≤ 11 / 10 * 10 ^ 12 * x := by
    have hone := le_mul_of_one_le_left (add_pos h.straight.other_pos h.straight.pos).le h.large
    linarith [h.reach_le]
  have hlast := h.distance_le
  have hinvariant := h.invariant_le
  have hlarge := h.large
  have htilt := h.tilt_ge
  have hpull := h.weight_le_pull
  rw [Decimal.ulp_eq] at *
  linarith

/-- The roundings of the derivative, with those of the weight. -/
theorem slope_error_le {rise : ℚ}
    (hrise : |rise - a.exactLift d x y| ≤ Decimal.ulp + (2 * Decimal.ulp + 21 / 10 *
      (ε * a.exactWeight (exactProduct d ⟨x, y⟩) + Decimal.ulp) +
        9 * Decimal.ulp * a.exactWeight (exactProduct d ⟨x, y⟩)) / (a.exactGap d ⟨x, y⟩ * y) +
          1 / 40000 * a.exactLift d x y) :
    |rise - a.exactLift d x y| * (d * |x + y - d|) +
      |w - a.exactWeight (exactProduct d ⟨x, y⟩)| * d + Decimal.ulp * (|x + y - d| + 2) ≤
        a.balanceTilt d x y / 50 := by
  have hB : 0 < a.exactGap d ⟨x, y⟩ * y := mul_pos h.straight.gap_pos h.straight.pos
  have hd := h.straight.invariant_pos
  have hdistance : 0 ≤ d * |x + y - d| := mul_nonneg hd.le (abs_nonneg _)
  have hweight := a.exactWeight_nonneg h.straight.product_pos.le
  have hpull := h.straight.pull_nonneg
  have hlarge := h.large
  have hinvariant := h.invariant_le
  have hfar := h.distance_le
  have htilt := h.tilt_ge
  have hpart := h.part_le hε hεAxis
  have hover : a.exactWeight (exactProduct d ⟨x, y⟩) * (d * |x + y - d|) /
      (a.exactGap d ⟨x, y⟩ * y) ≤ a.balanceTilt d x y := (div_le_iff₀ hB).mpr h.weight_mul_le
  have hlift : a.exactLift d x y * (d * |x + y - d|) ≤ a.balanceTilt d x y := by
    have hother := h.straight.other_pos
    unfold balanceTilt
    linarith
  have hunits : d * |x + y - d| / (a.exactGap d ⟨x, y⟩ * y) ≤ 1000 / 13 * (d * |x + y - d|) := by
    rw [div_le_iff₀ hB]
    linarith [mul_le_mul_of_nonneg_left h.flat hdistance]
  have hrelative := mul_le_mul hpart hover (by positivity) (by norm_num)
  have hnear : |x + y - d| ≤ d * |x + y - d| := le_mul_of_one_le_left (abs_nonneg _) hlarge
  have hscaled := mul_le_mul_of_nonneg_right hrise hdistance
  have hchange := mul_le_mul_of_nonneg_right hw hd.le
  have hpartPull := mul_le_mul_of_nonneg_right hpart hpull
  have hpullEq : a.exactPull d ⟨x, y⟩ = a.exactWeight (exactProduct d ⟨x, y⟩) * d := rfl
  have hsplit : (2 * Decimal.ulp + 21 / 10 * (ε * a.exactWeight (exactProduct d ⟨x, y⟩) +
      Decimal.ulp) + 9 * Decimal.ulp * a.exactWeight (exactProduct d ⟨x, y⟩)) /
        (a.exactGap d ⟨x, y⟩ * y) * (d * |x + y - d|) =
      41 / 10 * Decimal.ulp * (d * |x + y - d| / (a.exactGap d ⟨x, y⟩ * y)) +
        21 / 10 * (ε * (a.exactWeight (exactProduct d ⟨x, y⟩) * (d * |x + y - d|) /
          (a.exactGap d ⟨x, y⟩ * y))) +
        9 * Decimal.ulp * (a.exactWeight (exactProduct d ⟨x, y⟩) * (d * |x + y - d|) /
          (a.exactGap d ⟨x, y⟩ * y)) := by
    ring
  rw [add_mul, add_mul, hsplit] at hscaled
  rw [hpullEq] at hpull htilt hpartPull
  rw [Decimal.ulp_eq] at *
  linarith

end Weight

/-! ### The computed curve -/

end ResolvedBalance

/-- The curve does not tell the two balances apart: `K₀`, the gap and `F` are those of the balance
on one side after the other one. -/
theorem exact_side (a : AmpGamma) (d : ℚ) (p : Pair ℚ) (side : Side) :
    exactProduct d p = exactProduct d ⟨p.get side.other, p.get side⟩ ∧
      a.exactGap d p = a.exactGap d ⟨p.get side.other, p.get side⟩ ∧
      a.exactResidual d p = a.exactResidual d ⟨p.get side.other, p.get side⟩ := by
  have hproduct : exactProduct d p = exactProduct d ⟨p.get side.other, p.get side⟩ := by
    cases side with
    | base => exact congrArg (4 * · / d ^ 2) (mul_comm _ _)
    | quote => rfl
  refine ⟨hproduct, ?_, ?_⟩
  · rw [exactGap, exactGap, hproduct]
  · rw [exactResidual, exactResidual, ← hproduct]
    cases side with
    | base =>
      simp only [Side.other, Pair.get]
      ring
    | quote => rfl

namespace ResolvedBalance

section Computed

variable {a : AmpGamma} {d v : SignedDecimal} {p : Pair SignedDecimal} {side : Side}
variable {c : Curve.Coefficients}
variable (h : a.ResolvedBalance d.toRat (p.get side.other).toRat (p.get side).toRat)
include h

/-- The computed coefficients: `K₀` and the gap to a few units of the last place, and the weight up
to a relative error `ε` and one unit. -/
theorem coefficients_near (hc : a.curve.coefficients d p = .ok c) :
    ∃ ε, 0 ≤ ε ∧
      ε * (a.exactGap d.toRat ⟨(p.get side.other).toRat, (p.get side).toRat⟩ *
        (p.get side).toRat) ≤ 2 / 10 ^ 6 ∧
      |c.product.toRat - exactProduct d.toRat ⟨(p.get side.other).toRat, (p.get side).toRat⟩| ≤
        8 * Decimal.ulp ∧
      c.gap.toRat = a.gamma.toRat + 1 - c.product.toRat ∧
      |c.weight.toRat - a.exactWeight
          (exactProduct d.toRat ⟨(p.get side.other).toRat, (p.get side).toRat⟩)| ≤
        ε * a.exactWeight (exactProduct d.toRat ⟨(p.get side.other).toRat, (p.get side).toRat⟩) +
          Decimal.ulp := by
  obtain ⟨hproduct, hgap, -⟩ := a.exact_side d.toRat (p.map SignedDecimal.toRat) side
  rw [Pair.get_map, Pair.get_map] at hproduct hgap
  have hulp := Decimal.ulp_pos
  have hk := h.straight.product_pos
  have hγ := h.gamma_pos
  have hgapPos := h.straight.gap_pos
  have hlarge : 99 / 100 ≤ d.toRat := by linarith [h.large]
  have herror := coefficients_error (x := p) (c := c) hlarge h.amp_ge hγ
  rw [hproduct, hgap] at herror
  exact ⟨_, by positivity, h.weight_error_le,
    herror hk h.straight.product_le hgapPos h.ulp_le_gap h.ulp_mul_gap_le hc⟩

/-- `F` is computed to a fiftieth of the tolerance, on the axis of the balance. -/
theorem residual_near (hv : a.curve.residual d p = .ok v) :
    |v.toRat - a.exactResidual d.toRat ⟨(p.get side.other).toRat, (p.get side).toRat⟩| ≤
      a.balanceTilt d.toRat (p.get side.other).toRat (p.get side).toRat / 50000 := by
  obtain ⟨c, hc, -⟩ := by simpa only [Curve.residual, bind_eq_ok] using hv
  obtain ⟨ε, hε, hεAxis, -, -, hweight⟩ := h.coefficients_near hc
  obtain ⟨hproduct, -, hresidual⟩ := a.exact_side d.toRat (p.map SignedDecimal.toRat) side
  rw [Pair.get_map, Pair.get_map] at hproduct hresidual
  have hsum : p.base.toRat + p.quote.toRat = (p.get side.other).toRat + (p.get side).toRat := by
    cases side with
    | base => exact add_comm _ _
    | quote => rfl
  have hnonneg : 0 ≤ p.base.toRat + p.quote.toRat := by
    rw [hsum]
    exact (add_pos h.straight.other_pos h.straight.pos).le
  have herror := residual_error h.straight.invariant_pos hnonneg hc hv
  rw [hresidual, hproduct, hsum] at herror
  exact herror.trans (h.residual_error_le hε hεAxis hweight)

/-- The derivative is computed to a fiftieth of itself, or of what its terms come to. -/
theorem slope_near (hv : a.curve.slopeBalance d p side = .ok v) :
    |v.toRat - a.balanceSlope d.toRat (p.get side.other).toRat (p.get side).toRat| ≤
      a.balanceTilt d.toRat (p.get side.other).toRat (p.get side).toRat / 50 := by
  simp only [Curve.slopeBalance, bind_eq_ok] at hv
  obtain ⟨c, hc, top, htop, grown, hgrown, scaled, hscaled, den, hden, rise, hrise, once, honce,
    sum, hsum, room, hroom, lifted, hlifted, pull, hpull, upper, hupper, hv⟩ := hv
  obtain ⟨ε, hε, hεAxis, hproduct, hgap, hweight⟩ := h.coefficients_near hc
  have htop := SignedDecimal.toRat_add htop
  have hgrown := SignedDecimal.toRat_add hgrown
  have hscaled := SignedDecimal.abs_mul_sub_le hscaled
  have hden := SignedDecimal.abs_mul_sub_le hden
  have hrise := (SignedDecimal.abs_div_sub_le hrise).2
  have honce := SignedDecimal.abs_mul_sub_le honce
  have hsum := SignedDecimal.toRat_add hsum
  have hroom := SignedDecimal.toRat_sub hroom
  have hlifted := SignedDecimal.abs_mul_sub_le hlifted
  have hpull := SignedDecimal.abs_mul_sub_le hpull
  have hupper := SignedDecimal.toRat_add hupper
  have hv := SignedDecimal.toRat_add hv
  have hgammaSame : a.curve.gamma.toRat = a.gamma.toRat := SignedDecimal.toRat_toSigned _
  have hulp := Decimal.ulp_pos
  have hk := h.straight.product_pos
  have hgapPos := h.straight.gap_pos
  have hweightNonneg := a.exactWeight_nonneg hk.le
  have hgammaLe := h.straight.gamma_le
  have hgammaPos := h.gamma_pos
  have hfar : room.toRat = (p.get side.other).toRat + (p.get side).toRat - d.toRat := by
    rw [hroom, hsum]
    cases side with
    | base => exact congrArg (· - d.toRat) (add_comm _ _)
    | quote => rfl
  rw [hgammaSame, SignedDecimal.toRat_one] at htop
  rw [hgrown, htop] at hscaled
  have hgapNear : |c.gap.toRat - a.exactGap d.toRat
      ⟨(p.get side.other).toRat, (p.get side).toRat⟩| ≤ 8 * Decimal.ulp := by
    rw [hgap, exactGap, sub_sub_sub_cancel_left, abs_sub_comm]
    exact hproduct
  have hdivisor :=
    divisor_near hulp h.straight.pos h.ulp_le_gap h.flat Decimal.ulp_eq.le hgapNear hden
  have hriseNear := lift_near hulp hweightNonneg (by linarith : a.gamma.toRat + 1 ≤ 51 / 50) hk
    h.straight.product_le (by linarith) (mul_pos hgapPos h.straight.pos) hweight hproduct
    Decimal.ulp_eq.le hscaled hdivisor hrise
  have hrounded := slopeBalance_rounded (x := (p.get side.other).toRat)
    (W := a.exactWeight (exactProduct d.toRat ⟨(p.get side.other).toRat, (p.get side).toRat⟩))
    (L := a.exactLift d.toRat (p.get side.other).toRat (p.get side).toRat)
    h.straight.invariant_pos honce hlifted hpull
  rw [hv, hupper]
  rw [hfar] at hrounded
  exact hrounded.trans (h.slope_error_le hε hεAxis hweight hriseNear)

/-- Where eighteen places are enough, a computed step of Newton's method follows the exact tangent
up to a twentieth of the tolerance. -/
theorem tangent_of_quotient {s q : SignedDecimal} (hv : a.curve.residual d p = .ok v)
    (hs : a.curve.slopeBalance d p side = .ok s) (hq : (v / s : Except Fault SignedDecimal) = .ok q)
    (hstep : |q.toRat| ≤ Limits.tolerance.toRat) :
    |a.exactResidual d.toRat ⟨(p.get side.other).toRat, (p.get side).toRat⟩ +
        a.balanceSlope d.toRat (p.get side.other).toRat (p.get side).toRat * -q.toRat| ≤
      Limits.tolerance.toRat / 20 *
        a.balanceTilt d.toRat (p.get side.other).toRat (p.get side).toRat := by
  obtain ⟨hne, hquotient⟩ := SignedDecimal.abs_div_sub_le hq
  exact abs_tangent_le h.straight.tilt_pos.le hne (h.residual_near hv) (h.slope_near hs)
    h.straight.abs_slope_le hquotient hstep

end Computed

end ResolvedBalance

end AmpGamma

end ConcentratedPool
