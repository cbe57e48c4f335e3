import ConcentratedPool.Proofs.CurveSecants
import ConcentratedPool.Proofs.SignedRounding

/-!
# The curve in eighteen places

`Curve.residual` and `Curve.slopeInvariant` round after each operation. What matters of the
roundings is how they compare with `AmpGamma.exactTilt`, the terms of the derivative: divided by it,
the error of `F` is a distance on the axis of the invariant, and that of the derivative a relative
one.

The worst loss is in the gap `γ + 1 - K₀`, a difference of two numbers near one, by which the weight
is divided twice. `AmpGamma.Resolved` collects what keeps it small: the balances are at most `10¹²`
in total, and the invariant is at most about `10¹²` times `γ K₀`. Then `F` is computed to a fiftieth
of the tolerance and its derivative to a fiftieth of itself (`AmpGamma.Resolved.residual_near`,
`AmpGamma.Resolved.slope_near`).
-/

set_option autoImplicit false
set_option relaxedAutoImplicit false

namespace ConcentratedPool

theorem Decimal.ulp_eq : Decimal.ulp = 1 / 10 ^ 18 := by norm_num [Decimal.ulp, Decimal.scale]

theorem Limits.tolerance_toRat : Limits.tolerance.toRat = 1 / 1000 := by
  norm_num [Decimal.toRat, Limits.tolerance, Decimal.scale]

/-! ### The coefficients -/

/-- `K₀` is computed to a few units of the last place. -/
theorem product_near {area square d quadruple p k u : ℚ} (hu : 0 < u) (huSmall : u ≤ 1 / 10 ^ 18)
    (hd : 99 / 100 ≤ d) (hk : k * d ^ 2 = 4 * area) (hkNonneg : 0 ≤ k) (hkOne : k ≤ 51 / 50)
    (hquadruple : |quadruple - 4 * area| ≤ 5 * u) (hsquare : |square - d ^ 2| ≤ u)
    (hp : |p - quadruple / square| ≤ u) : |p - k| ≤ 8 * u := by
  obtain ⟨hsquareLow, hsquareHigh⟩ := abs_le.mp hsquare
  have hsquarePos : 97 / 100 ≤ square := by nlinarith
  have hrounded : |quadruple / square - k| ≤ 7 * u := by
    have hdiff : quadruple / square - k =
        (quadruple - 4 * area + k * (d ^ 2 - square)) / square := by
      field_simp
      linarith
    have hnumerator : |quadruple - 4 * area + k * (d ^ 2 - square)| ≤ 5 * u + 51 / 50 * u := by
      refine (abs_add_le _ _).trans (add_le_add hquadruple ?_)
      rw [abs_mul, abs_of_nonneg hkNonneg, abs_sub_comm]
      exact mul_le_mul hkOne hsquare (abs_nonneg _) (by norm_num)
    rw [hdiff, abs_div, abs_of_pos (by linarith : 0 < square), div_le_iff₀ (by linarith)]
    have hscaled := mul_le_mul_of_nonneg_left hsquarePos hu.le
    linarith
  calc |p - k| ≤ |p - quadruple / square| + |quadruple / square - k| := abs_sub_le _ _ _
    _ ≤ u + 7 * u := add_le_add hp hrounded
    _ = 8 * u := by ring

section Weight

variable {A k γ gap p gap' r m n w u : ℚ}

/-- The quotient of `γ` by the gap, relative to the exact one: a rounding of the gap counts as much
as the gap is small, and the rounding of the quotient as much as the quotient is. -/
theorem ratio_near (hu : 0 < u) (hγ : 0 < γ) (hgap : 0 < gap) (hfine : u ≤ gap / 600000)
    (hp : |p - k| ≤ 8 * u) (hgap' : gap' = gap - (p - k)) (hr : |r - γ / gap'| ≤ u) :
    |r - γ / gap| ≤ (9 * u / gap + u * gap / γ) * (γ / gap) := by
  obtain ⟨hlow, hhigh⟩ := abs_le.mp hp
  have hgap'Low : 9999 / 10000 * gap ≤ gap' := by linarith
  have hgap'Pos : 0 < gap' := by linarith
  have hmoved : |γ / gap' - γ / gap| ≤ 9 * u / gap * (γ / gap) := by
    have hdiff : γ / gap' - γ / gap = γ / gap * ((p - k) / gap') := by
      rw [hgap'] at hgap'Pos ⊢
      field_simp
      ring
    rw [hdiff, abs_mul, abs_of_pos (by positivity : 0 < γ / gap), mul_comm]
    refine mul_le_mul_of_nonneg_right ?_ (by positivity)
    rw [abs_div, abs_of_pos hgap'Pos, div_le_div_iff₀ hgap'Pos hgap]
    have hscaled := mul_le_mul_of_nonneg_right hp hgap.le
    have hscaled' := mul_le_mul_of_nonneg_left hgap'Low hu.le
    have hnonneg := mul_nonneg hu.le hgap.le
    linarith
  have hrounded : u = u * gap / γ * (γ / gap) := by field_simp
  calc |r - γ / gap| ≤ |r - γ / gap'| + |γ / gap' - γ / gap| := abs_sub_le _ _ _
    _ ≤ u * gap / γ * (γ / gap) + 9 * u / gap * (γ / gap) := by
        rw [← hrounded]
        exact add_le_add hr hmoved
    _ = (9 * u / gap + u * gap / γ) * (γ / gap) := by ring

/-- The part by which the quotient may be off, where the gap and `γ` are resolved. -/
theorem ratio_part_le (hγ : 0 < γ) (hgap : 0 < gap) (hfine : u ≤ gap / 600000)
    (hfineγ : u * gap ≤ γ / 900000) : 9 * u / gap + u * gap / γ ≤ 1 / 50000 := by
  have hfirst : 9 * u / gap ≤ 9 / 600000 := by
    rw [div_le_iff₀ hgap]
    linarith
  have hsecond : u * gap / γ ≤ 1 / 900000 := by
    rw [div_le_iff₀ hγ]
    linarith
  linarith

/-- A quotient that is off by such a part is positive and not much above the exact one. -/
theorem ratio_upper {η R : ℚ} (hR : 0 < R) (hη : η ≤ 1 / 50000) (hr : |r - R| ≤ η * R) :
    0 ≤ r ∧ r ≤ 10001 / 10000 * R ∧ r ^ 2 ≤ 1001 / 1000 * R ^ 2 := by
  obtain ⟨hlow, hhigh⟩ := abs_le.mp hr
  have hηR := mul_le_mul_of_nonneg_right hη hR.le
  have hnonneg : 0 ≤ r := by linarith
  have hupper : r ≤ 10001 / 10000 * R := by linarith
  refine ⟨hnonneg, hupper, ?_⟩
  calc r ^ 2 ≤ (10001 / 10000 * R) ^ 2 := pow_le_pow_left₀ hnonneg hupper 2
    _ ≤ 1001 / 1000 * R ^ 2 := by linarith [sq_nonneg R]

/-- In a product that is rounded factor by factor each rounding enters with the factors that are
still to come. -/
theorem factors_near {R : ℚ} (hA : 0 < A) (hk : 0 < k) (hr : 0 ≤ r) (hR : 0 < R)
    (hp : |p - k| ≤ 8 * u) (hm : |m - A * p| ≤ u) (hn : |n - m * r| ≤ u) (hw : |w - n * r| ≤ u) :
    |w - A * k * R ^ 2| ≤
      u + u * r + u * r ^ 2 + 8 * (A * u * r ^ 2) + A * k * (|r - R| * (r + R)) := by
  have hsplit : w - A * k * R ^ 2 = (w - n * r) + (n - m * r) * r + (m - A * p) * r ^ 2 +
      A * (p - k) * r ^ 2 + A * k * ((r - R) * (r + R)) := by ring
  have hsecond : |(n - m * r) * r| ≤ u * r := by
    rw [abs_mul, abs_of_nonneg hr]
    exact mul_le_mul_of_nonneg_right hn hr
  have hthird : |(m - A * p) * r ^ 2| ≤ u * r ^ 2 := by
    rw [abs_mul, abs_of_nonneg (sq_nonneg r)]
    exact mul_le_mul_of_nonneg_right hm (sq_nonneg r)
  have hfourth : |A * (p - k) * r ^ 2| ≤ 8 * (A * u * r ^ 2) := by
    rw [abs_mul, abs_mul, abs_of_pos hA, abs_of_nonneg (sq_nonneg r)]
    have hscaled := mul_le_mul_of_nonneg_right (mul_le_mul_of_nonneg_left hp hA.le) (sq_nonneg r)
    linarith
  have hfifth : |A * k * ((r - R) * (r + R))| = A * k * (|r - R| * (r + R)) := by
    rw [abs_mul, abs_mul (r - R), abs_of_pos (mul_pos hA hk), abs_of_nonneg (add_nonneg hr hR.le)]
  rw [hsplit, ← hfifth]
  refine (abs_add_le _ _).trans (add_le_add_left ?_ _)
  refine (abs_add_le _ _).trans (add_le_add ?_ hfourth)
  refine (abs_add_le _ _).trans (add_le_add ?_ hthird)
  exact (abs_add_le _ _).trans (add_le_add hw hsecond)

/-- The weight, relative to the exact one but for the roundings of its last three factors. -/
theorem weight_rounded (hu : 0 < u) (hA : 0 < A) (hk : 0 < k) (hγ : 0 < γ) (hgap : 0 < gap)
    (hfine : u ≤ gap / 600000) (hfineγ : u * gap ≤ γ / 900000) (hp : |p - k| ≤ 8 * u)
    (hr : |r - γ / gap| ≤ (9 * u / gap + u * gap / γ) * (γ / gap))
    (hm : |m - A * p| ≤ u) (hn : |n - m * r| ≤ u) (hw : |w - n * r| ≤ u) :
    |w - A * k * (γ / gap) ^ 2| ≤
      u * (801 / 100 / k + 1801 / 100 / gap + 201 / 100 * gap / γ) * (A * k * (γ / gap) ^ 2) +
        u * (1 + 1001 / 1000 * (γ / gap) + 1001 / 1000 * (γ / gap) ^ 2) := by
  have hRpos : 0 < γ / gap := div_pos hγ hgap
  obtain ⟨hrPos, hrUpper, hrSq⟩ := ratio_upper hRpos (ratio_part_le hγ hgap hfine hfineγ) hr
  refine (factors_near hA hk hrPos hRpos hp hm hn hw).trans ?_
  -- The error of the ratio counts twice, the two ratios being alike.
  have htwice : A * k * (|r - γ / gap| * (r + γ / gap)) ≤
      A * k * ((9 * u / gap + u * gap / γ) * (γ / gap) * (2001 / 1000 * (γ / gap))) := by
    refine mul_le_mul_of_nonneg_left ?_ (mul_pos hA hk).le
    exact mul_le_mul hr (by linarith) (by linarith) (by positivity)
  have hrelative :
      A * k * ((9 * u / gap + u * gap / γ) * (γ / gap) * (2001 / 1000 * (γ / gap))) =
        2001 / 1000 * (9 * (u / gap * (A * k * (γ / gap) ^ 2)) +
          u * gap / γ * (A * k * (γ / gap) ^ 2)) := by ring
  have htarget :
      u * (801 / 100 / k + 1801 / 100 / gap + 201 / 100 * gap / γ) * (A * k * (γ / gap) ^ 2) =
        801 / 100 * (A * u * (γ / gap) ^ 2) + 1801 / 100 * (u / gap * (A * k * (γ / gap) ^ 2)) +
          201 / 100 * (u * gap / γ * (A * k * (γ / gap) ^ 2)) := by
    field_simp
  have hgapPart : 0 < u / gap * (A * k * (γ / gap) ^ 2) := by positivity
  have hγPart : 0 < u * gap / γ * (A * k * (γ / gap) ^ 2) := by positivity
  have hAurSq := mul_le_mul_of_nonneg_left hrSq (mul_pos hA hu).le
  have hur := mul_le_mul_of_nonneg_left hrUpper hu.le
  have hurSq := mul_le_mul_of_nonneg_left hrSq hu.le
  have huR : 0 < u * (γ / gap) := by positivity
  have hAuR : 0 < A * u * (γ / gap) ^ 2 := by positivity
  rw [htarget]
  linarith

/-- The weight, relative to the exact one and up to one unit of the last place. -/
theorem weight_near (hu : 0 < u) (hA : 2 / 5 ≤ A) (hk : 0 < k) (hkOne : k ≤ 51 / 50) (hγ : 0 < γ)
    (hgap : 0 < gap) (hfine : u ≤ gap / 600000) (hfineγ : u * gap ≤ γ / 900000)
    (hp : |p - k| ≤ 8 * u) (hr : |r - γ / gap| ≤ (9 * u / gap + u * gap / γ) * (γ / gap))
    (hm : |m - A * p| ≤ u) (hn : |n - m * r| ≤ u) (hw : |w - n * r| ≤ u) :
    |w - A * k * (γ / gap) ^ 2| ≤
      u * (11 / k + 19 / gap + 5 * gap / (k * γ)) * (A * k * (γ / gap) ^ 2) + u := by
  have hApos : 0 < A := by linarith
  refine (weight_rounded hu hApos hk hγ hgap hfine hfineγ hp hr hm hn hw).trans ?_
  set R := γ / gap with hR
  have hRpos : 0 < R := by positivity
  -- The roundings of the last factors, times the weight.
  have hquotient : u * gap / γ * (A * k * R ^ 2) = k * (A * (u * R)) := by
    rw [hR]
    field_simp
  have hleft : u * (801 / 100 / k + 1801 / 100 / gap + 201 / 100 * gap / γ) * (A * k * R ^ 2) =
      801 / 100 * (A * (u * R ^ 2)) + 1801 / 100 * (u / gap * (A * k * R ^ 2)) +
        201 / 100 * (k * (A * (u * R))) := by
    rw [← hquotient]
    field_simp
  have hright : u * (11 / k + 19 / gap + 5 * gap / (k * γ)) * (A * k * R ^ 2) =
      11 * (A * (u * R ^ 2)) + 19 * (u / gap * (A * k * R ^ 2)) + 5 * (A * (u * R)) := by
    have hshare : 5 * (A * (u * R)) = 5 * gap / (k * γ) * u * (A * k * R ^ 2) := by
      rw [hR]
      field_simp
    rw [hshare]
    field_simp
  have huR : 0 < u * R := by positivity
  have huRSq : 0 < u * R ^ 2 := by positivity
  have hgapPart : 0 < u / gap * (A * k * R ^ 2) := by positivity
  have hAuR := mul_le_mul_of_nonneg_right hA huR.le
  have hAuRSq := mul_le_mul_of_nonneg_right hA huRSq.le
  have hkAuR := mul_le_mul_of_nonneg_right hkOne (mul_pos hApos huR).le
  rw [hleft, hright]
  linarith

end Weight

/-! ### The residual -/

/-- The roundings of `F`, apart from those of the weight. -/
theorem residual_rounded {w d sum area square once lifted area' pulled quarter u : ℚ}
    (hsum : 0 ≤ sum) (hsquare : |square - d ^ 2| ≤ u) (honce : |once - w * d| ≤ u)
    (hlifted : |lifted - once * sum| ≤ u) (harea : |area' - area| ≤ u)
    (hpulled : |pulled - w * square| ≤ u) (hquarter : |quarter - square / 4| ≤ u) :
    |lifted + area' - pulled - quarter - (w * d * (sum - d) + area - d ^ 2 / 4)| ≤
      u * (sum + |w| + 5) := by
  have hsplit : lifted + area' - pulled - quarter - (w * d * (sum - d) + area - d ^ 2 / 4) =
      (lifted - once * sum) + (once - w * d) * sum + (area' - area) - (pulled - w * square) -
        w * (square - d ^ 2) - (quarter - square / 4) - (square - d ^ 2) / 4 := by ring
  have honceSum : |(once - w * d) * sum| ≤ u * sum := by
    rw [abs_mul, abs_of_nonneg hsum]
    exact mul_le_mul_of_nonneg_right honce hsum
  have hweight : |w * (square - d ^ 2)| ≤ |w| * u := by
    rw [abs_mul]
    exact mul_le_mul_of_nonneg_left hsquare (abs_nonneg w)
  rw [hsplit]
  rw [abs_le] at *
  obtain ⟨h₁, h₂⟩ := hsquare
  obtain ⟨h₃, h₄⟩ := hlifted
  obtain ⟨h₅, h₆⟩ := harea
  obtain ⟨h₇, h₈⟩ := hpulled
  obtain ⟨h₉, h₁₀⟩ := hquarter
  obtain ⟨h₁₁, h₁₂⟩ := honceSum
  obtain ⟨h₁₃, h₁₄⟩ := hweight
  constructor
  · linarith
  · linarith

/-! ### The derivative -/

section Slope

variable {g k gap gap' p W w E d sum twice lifted rise upper lower half u : ℚ}

/-- The quotient `(γ + 1 + K₀) / (γ + 1 - K₀)`, where `K₀` is a few units off. -/
theorem growth_near (hu : 0 < u) (hg : g ≤ 51 / 50) (hk : 0 < k)
    (hgapPos : 0 < gap) (hgap : gap = g - k) (hgap' : gap' = g - p) (hfine : u ≤ gap / 600000)
    (hp : |p - k| ≤ 8 * u) :
    9999 / 10000 * gap ≤ gap' ∧ |(g + p) / gap'| ≤ 41 / 20 / gap ∧
      |(g + p) / gap' - (g + k) / gap| ≤ 17 * u / gap ^ 2 := by
  obtain ⟨hpLow, hpHigh⟩ := abs_le.mp hp
  have hgap'Low : 9999 / 10000 * gap ≤ gap' := by linarith
  have hgap'Pos : 0 < gap' := by linarith
  have hsumPos : 0 ≤ g + p := by linarith
  refine ⟨hgap'Low, ?_, ?_⟩
  · rw [abs_of_nonneg (div_nonneg hsumPos hgap'Pos.le), div_le_div_iff₀ hgap'Pos hgapPos]
    have hsumLe : g + p ≤ 2041 / 1000 := by linarith
    have hscaled := mul_le_mul_of_nonneg_right hsumLe hgapPos.le
    linarith
  · have hdiff : (g + p) / gap' - (g + k) / gap = (p - k) * (2 * g) / (gap' * gap) := by
      rw [hgap'] at hgap'Pos ⊢
      rw [hgap] at hgapPos ⊢
      field_simp
      ring
    have hgPos : 0 < g := by linarith
    have hden : 0 < gap' * gap := mul_pos hgap'Pos hgapPos
    rw [hdiff, abs_div, abs_mul, abs_of_pos hden, abs_of_pos (by linarith : 0 < 2 * g),
      div_le_div_iff₀ hden (by positivity)]
    have hnumerator : |p - k| * (2 * g) ≤ 8 * u * (51 / 25) :=
      mul_le_mul hp (by linarith) (by linarith) (by linarith)
    have hsq := mul_le_mul_of_nonneg_right hnumerator (sq_nonneg gap)
    have hwide := mul_le_mul_of_nonneg_left hgap'Low (mul_pos hu hgapPos).le
    have hrest := mul_nonneg hu.le (sq_nonneg gap)
    linarith

/-- How fast the weight changes with the invariant. -/
theorem rise_near (hu : 0 < u) (hW : 0 ≤ W) (hg : g ≤ 51 / 50) (hk : 0 < k)
    (hgapPos : 0 < gap) (hgapOne : gap ≤ 51 / 50) (hgap : gap = g - k) (hgap' : gap' = g - p)
    (hfine : u ≤ gap / 600000) (hp : |p - k| ≤ 8 * u) (hw : |w - W| ≤ E)
    (htwice : |twice - w * 2| ≤ u) (hlifted : |lifted - twice * (g + p)| ≤ u)
    (hrise : |rise - lifted / gap'| ≤ u) :
    |rise - 2 * W * (g + k) / gap| ≤ (5 * u + 41 / 10 * E) / gap + 34 * u * W / gap ^ 2 := by
  obtain ⟨hgap'Low, hgrowth, hgrowthNear⟩ :=
    growth_near hu hg hk hgapPos hgap hgap' hfine hp
  have hgap'Pos : 0 < gap' := by linarith
  have hsplit : rise - 2 * W * (g + k) / gap = (rise - lifted / gap') +
      (lifted - twice * (g + p)) / gap' + (twice - w * 2) * ((g + p) / gap') +
      2 * (w - W) * ((g + p) / gap') + 2 * W * ((g + p) / gap' - (g + k) / gap) := by
    field_simp
    ring
  have hone : u ≤ 51 / 50 * (u / gap) := by
    rw [mul_div_assoc', le_div_iff₀ hgapPos]
    linarith [mul_le_mul_of_nonneg_left hgapOne hu.le]
  have hfirst : |(lifted - twice * (g + p)) / gap'| ≤ 1001 / 1000 * (u / gap) := by
    rw [abs_div, abs_of_pos hgap'Pos, mul_div_assoc', div_le_div_iff₀ hgap'Pos hgapPos]
    have hscaled := mul_le_mul_of_nonneg_right hlifted hgapPos.le
    have hwide := mul_le_mul_of_nonneg_left hgap'Low hu.le
    have hrest := mul_nonneg hu.le hgapPos.le
    linarith
  have hsecond : |(twice - w * 2) * ((g + p) / gap')| ≤ 41 / 20 * (u / gap) := by
    rw [abs_mul]
    calc |twice - w * 2| * |(g + p) / gap'| ≤ u * (41 / 20 / gap) :=
          mul_le_mul htwice hgrowth (abs_nonneg _) hu.le
      _ = 41 / 20 * (u / gap) := by ring
  have hthird : |2 * (w - W) * ((g + p) / gap')| ≤ 41 / 10 * (E / gap) := by
    have hE : 0 ≤ E := (abs_nonneg _).trans hw
    rw [abs_mul, abs_mul, abs_two]
    calc 2 * |w - W| * |(g + p) / gap'| ≤ 2 * E * (41 / 20 / gap) :=
          mul_le_mul (by linarith) hgrowth (abs_nonneg _) (by linarith)
      _ = 41 / 10 * (E / gap) := by ring
  have hfourth : |2 * W * ((g + p) / gap' - (g + k) / gap)| ≤ 34 * u * W / gap ^ 2 := by
    rw [abs_mul, abs_of_nonneg (by linarith : 0 ≤ 2 * W)]
    calc 2 * W * |(g + p) / gap' - (g + k) / gap| ≤ 2 * W * (17 * u / gap ^ 2) :=
          mul_le_mul_of_nonneg_left hgrowthNear (by linarith)
      _ = 34 * u * W / gap ^ 2 := by ring
  have htarget : (5 * u + 41 / 10 * E) / gap = 5 * (u / gap) + 41 / 10 * (E / gap) := by ring
  have hupos : 0 < u / gap := div_pos hu hgapPos
  have htotal : |rise - 2 * W * (g + k) / gap| ≤ u + 1001 / 1000 * (u / gap) +
      41 / 20 * (u / gap) + 41 / 10 * (E / gap) + 34 * u * W / gap ^ 2 := by
    rw [hsplit]
    refine (abs_add_le _ _).trans (add_le_add ?_ hfourth)
    refine (abs_add_le _ _).trans (add_le_add ?_ hthird)
    refine (abs_add_le _ _).trans (add_le_add ?_ hsecond)
    exact (abs_add_le _ _).trans (add_le_add hrise hfirst)
  rw [htarget]
  linarith

/-- That error over a distance `t` of the sum from the invariant, by what it is made of: the units,
the part by which the weight is off, and the units of the gap. -/
theorem rise_error_eq (ε v t : ℚ) (hgap : gap ≠ 0) :
    ((5 * u + 41 / 10 * (ε * W + v)) / gap + 34 * u * W / gap ^ 2) * t =
      (5 * u + 41 / 10 * v) / gap * t + 41 / 10 * (ε * (W * t / gap)) +
        34 * (u / gap * (W * t / gap)) := by
  field_simp
  ring

/-- The roundings of the derivative, with those of the weight and of how fast it changes. -/
theorem slope_rounded {R : ℚ} (hd : 0 < d) (htwice : |twice - w * 2| ≤ u)
    (hupper : |upper - (-rise + w) * sum| ≤ u) (hlower : |lower - (-rise + twice) * d| ≤ u)
    (hhalf : |half - d / 2| ≤ u) :
    |upper - lower - half - ((-R + W) * sum - (-R + 2 * W) * d - d / 2)| ≤
      |rise - R| * |sum - d| + |w - W| * (|sum - d| + d) + u * (3 + d) := by
  have hsplit : upper - lower - half - ((-R + W) * sum - (-R + 2 * W) * d - d / 2) =
      -((rise - R) * (sum - d)) + (w - W) * (sum - d) - (w - W) * d +
        (upper - (-rise + w) * sum) - (lower - (-rise + twice) * d) - (half - d / 2) -
        (twice - w * 2) * d := by ring
  have hrise : |(rise - R) * (sum - d)| = |rise - R| * |sum - d| := abs_mul _ _
  have hweight : |(w - W) * (sum - d)| = |w - W| * |sum - d| := abs_mul _ _
  have hpull : |(w - W) * d| = |w - W| * d := by rw [abs_mul, abs_of_pos hd]
  have hdouble : |(twice - w * 2) * d| ≤ u * d := by
    rw [abs_mul, abs_of_pos hd]
    exact mul_le_mul_of_nonneg_right htwice hd.le
  rw [hsplit, mul_add (|w - W|), ← hrise, ← hweight, ← hpull]
  obtain ⟨h₁, h₂⟩ := abs_le.mp (le_refl |(rise - R) * (sum - d)|)
  obtain ⟨h₃, h₄⟩ := abs_le.mp (le_refl |(w - W) * (sum - d)|)
  obtain ⟨h₅, h₆⟩ := abs_le.mp (le_refl |(w - W) * d|)
  obtain ⟨h₇, h₈⟩ := abs_le.mp hupper
  obtain ⟨h₉, h₁₀⟩ := abs_le.mp hlower
  obtain ⟨h₁₁, h₁₂⟩ := abs_le.mp hhalf
  obtain ⟨h₁₃, h₁₄⟩ := abs_le.mp hdouble
  rw [abs_le]
  constructor
  · linarith
  · linarith

end Slope

/-! ### A step -/

/-- How far a rounded quotient of the value by the slope is off the tangent: by the rounding of the
value, by its own, and by that of the slope over its length. -/
theorem quotient_near {f g v s q : ℚ} (hs : s ≠ 0) :
    |f + g * -q| ≤ |v - f| + |s| * |q - v / s| + |s - g| * |q| := by
  have hsplit : f + g * -q = -(v - f) + -(s * (q - v / s)) + (s - g) * q := by
    field_simp
    ring
  calc |f + g * -q| ≤ |-(v - f) + -(s * (q - v / s))| + |(s - g) * q| := by
        rw [hsplit]
        exact abs_add_le _ _
    _ ≤ |-(v - f)| + |-(s * (q - v / s))| + |(s - g) * q| :=
        add_le_add_left (abs_add_le _ _) _
    _ = |v - f| + |s| * |q - v / s| + |s - g| * |q| := by
        rw [abs_neg, abs_neg, abs_mul, abs_mul]

/-- A computed step within the tolerance follows the exact tangent up to a twentieth of the
tolerance, where the value is right to a fiftieth of the tolerance and the slope to a fiftieth of
what its terms come to. -/
theorem abs_tangent_le {f g v s q tilt : ℚ} (htilt : 0 ≤ tilt) (hs : s ≠ 0)
    (hv : |v - f| ≤ tilt / 50000) (hg : |s - g| ≤ tilt / 50) (hexact : |g| ≤ tilt)
    (hq : |q - v / s| ≤ Decimal.ulp) (hstep : |q| ≤ Limits.tolerance.toRat) :
    |f + g * -q| ≤ Limits.tolerance.toRat / 20 * tilt := by
  have hsLe : |s| ≤ 2 * tilt := by
    have htriangle := abs_sub_abs_le_abs_sub s g
    linarith
  rw [Decimal.ulp_eq] at hq
  rw [Limits.tolerance_toRat] at hstep ⊢
  have hrounded := mul_le_mul hsLe hq (abs_nonneg _) (by linarith)
  have hturned := mul_le_mul hg hstep (abs_nonneg _) (by linarith)
  have hnear := quotient_near (f := f) (g := g) (v := v) (q := q) hs
  linarith

/-! ### The errors of the computed curve -/

namespace AmpGamma

section Computed

variable {a : AmpGamma} {d v : SignedDecimal} {x : Pair SignedDecimal} {c : Curve.Coefficients}

/-- The computed `K₀`, to a few units of the last place. -/
theorem product_error {area quadruple square product : SignedDecimal} (hd : 99 / 100 ≤ d.toRat)
    (hk : 0 ≤ exactProduct d.toRat (x.map SignedDecimal.toRat))
    (hkOne : exactProduct d.toRat (x.map SignedDecimal.toRat) ≤ 51 / 50)
    (harea : (x.base * x.quote : Except Fault SignedDecimal) = .ok area)
    (hquadruple : (area * SignedDecimal.four : Except Fault SignedDecimal) = .ok quadruple)
    (hsquare : (d * d : Except Fault SignedDecimal) = .ok square)
    (hproduct : (quadruple / square : Except Fault SignedDecimal) = .ok product) :
    |product.toRat - exactProduct d.toRat (x.map SignedDecimal.toRat)| ≤ 8 * Decimal.ulp := by
  have harea := SignedDecimal.abs_mul_sub_le harea
  have hquadruple := SignedDecimal.abs_mul_sub_le hquadruple
  have hsquare := SignedDecimal.abs_mul_sub_le hsquare
  have hproduct := (SignedDecimal.abs_div_sub_le hproduct).2
  rw [SignedDecimal.toRat_four] at hquadruple
  have hulp := Decimal.ulp_pos
  have hexact : exactProduct d.toRat (x.map SignedDecimal.toRat) * d.toRat ^ 2 =
      4 * (x.base.toRat * x.quote.toRat) :=
    div_mul_cancel₀ _ (pow_ne_zero 2 (by linarith : d.toRat ≠ 0))
  have hfour : |quadruple.toRat - 4 * (x.base.toRat * x.quote.toRat)| ≤ 5 * Decimal.ulp := by
    obtain ⟨hareaLow, hareaHigh⟩ := abs_le.mp harea
    obtain ⟨hquadrupleLow, hquadrupleHigh⟩ := abs_le.mp hquadruple
    rw [abs_le]
    constructor
    · linarith
    · linarith
  rw [← pow_two] at hsquare
  exact product_near hulp Decimal.ulp_eq.le hd hexact hk hkOne hfour hsquare hproduct

/-- The computed coefficients: `K₀` and the gap to a few units of the last place, and the weight up
to three relative errors and one unit. Assumes: an invariant of almost one at least, an
amplification in range, and a gap and a concentration that are far above one unit of the last
place. -/
theorem coefficients_error (hd : 99 / 100 ≤ d.toRat) (hamp : 2 / 5 ≤ a.amp.toRat)
    (hγ : 0 < a.gamma.toRat) (hk : 0 < exactProduct d.toRat (x.map SignedDecimal.toRat))
    (hkOne : exactProduct d.toRat (x.map SignedDecimal.toRat) ≤ 51 / 50)
    (hgapPos : 0 < a.exactGap d.toRat (x.map SignedDecimal.toRat))
    (hfine : Decimal.ulp ≤ a.exactGap d.toRat (x.map SignedDecimal.toRat) / 600000)
    (hfineγ : Decimal.ulp * a.exactGap d.toRat (x.map SignedDecimal.toRat) ≤ a.gamma.toRat / 900000)
    (hc : a.curve.coefficients d x = .ok c) :
    |c.product.toRat - exactProduct d.toRat (x.map SignedDecimal.toRat)| ≤ 8 * Decimal.ulp ∧
      c.gap.toRat = a.gamma.toRat + 1 - c.product.toRat ∧
      |c.weight.toRat - a.exactWeight (exactProduct d.toRat (x.map SignedDecimal.toRat))| ≤
        Decimal.ulp * (11 / exactProduct d.toRat (x.map SignedDecimal.toRat) +
          19 / a.exactGap d.toRat (x.map SignedDecimal.toRat) +
          5 * a.exactGap d.toRat (x.map SignedDecimal.toRat) /
            (exactProduct d.toRat (x.map SignedDecimal.toRat) * a.gamma.toRat)) *
          a.exactWeight (exactProduct d.toRat (x.map SignedDecimal.toRat)) + Decimal.ulp := by
  simp only [Curve.coefficients, bind_eq_ok, pure_eq_ok] at hc
  obtain ⟨area, harea, quadruple, hquadruple, square, hsquare, product, hproduct, top, htop, gap,
    hgap, ratio, hratio, scaled, hscaled, once, honce, weight, hweight, rfl⟩ := hc
  have hnear := product_error hd hk.le hkOne harea hquadruple hsquare hproduct
  have htop := SignedDecimal.toRat_add htop
  have hgap := SignedDecimal.toRat_sub hgap
  have hratio := (SignedDecimal.abs_div_sub_le hratio).2
  have hscaled := SignedDecimal.abs_mul_sub_le hscaled
  have honce := SignedDecimal.abs_mul_sub_le honce
  have hweight := SignedDecimal.abs_mul_sub_le hweight
  have hgamma : a.curve.gamma.toRat = a.gamma.toRat := SignedDecimal.toRat_toSigned _
  have hampSame : a.curve.amplification.toRat = a.amp.toRat := SignedDecimal.toRat_toSigned _
  rw [hgamma, SignedDecimal.toRat_one] at htop
  rw [hgamma] at hratio
  rw [hampSame] at hscaled
  rw [htop] at hgap
  have hulp := Decimal.ulp_pos
  have hmoved : gap.toRat = a.exactGap d.toRat (x.map SignedDecimal.toRat) -
      (product.toRat - exactProduct d.toRat (x.map SignedDecimal.toRat)) := by
    rw [hgap, exactGap]
    ring
  have hratioNear := ratio_near hulp hγ hgapPos hfine hnear hmoved hratio
  have hweightNear := weight_near hulp hamp hk hkOne hγ hgapPos hfine hfineγ hnear hratioNear
    hscaled honce hweight
  have hexactWeight : a.exactWeight (exactProduct d.toRat (x.map SignedDecimal.toRat)) =
      a.amp.toRat * exactProduct d.toRat (x.map SignedDecimal.toRat) *
        (a.gamma.toRat / a.exactGap d.toRat (x.map SignedDecimal.toRat)) ^ 2 := by
    rw [exactWeight, div_pow, mul_div_assoc]
    rfl
  rw [← hexactWeight] at hweightNear
  exact ⟨hnear, hgap, hweightNear⟩

/-- The roundings of `F`, with the weight as it was computed. -/
theorem residual_near_computed (hsumNonneg : 0 ≤ x.base.toRat + x.quote.toRat)
    (hc : a.curve.coefficients d x = .ok c) (hv : a.curve.residual d x = .ok v) :
    |v.toRat - (c.weight.toRat * d.toRat * (x.base.toRat + x.quote.toRat - d.toRat) +
        x.base.toRat * x.quote.toRat - d.toRat ^ 2 / 4)| ≤
      Decimal.ulp * (x.base.toRat + x.quote.toRat + |c.weight.toRat| + 5) := by
  simp only [Curve.residual, bind_eq_ok] at hv
  obtain ⟨_, hc', square, hsquare, once, honce, sum, hsum, lifted, hlifted, area, harea, upper,
    hupper, pulled, hpulled, mid, hmid, quarter, hquarter, hv⟩ := hv
  obtain rfl := Except.ok.inj (hc.symm.trans hc')
  have hsquare := SignedDecimal.abs_mul_sub_le hsquare
  have honce := SignedDecimal.abs_mul_sub_le honce
  have hsum := SignedDecimal.toRat_add hsum
  have hlifted := SignedDecimal.abs_mul_sub_le hlifted
  have harea := SignedDecimal.abs_mul_sub_le harea
  have hupper := SignedDecimal.toRat_add hupper
  have hpulled := SignedDecimal.abs_mul_sub_le hpulled
  have hmid := SignedDecimal.toRat_sub hmid
  have hquarter := (SignedDecimal.abs_div_sub_le hquarter).2
  have hv := SignedDecimal.toRat_sub hv
  rw [← pow_two] at hsquare
  rw [SignedDecimal.toRat_four] at hquarter
  rw [hsum] at hlifted
  have hvalue : v.toRat = lifted.toRat + area.toRat - pulled.toRat - quarter.toRat := by
    rw [hv, hmid, hupper]
  rw [hvalue]
  exact residual_rounded hsumNonneg hsquare honce hlifted harea hpulled hquarter

/-- The roundings of `F`, with that of the weight. -/
theorem residual_error (hd : 0 < d.toRat) (hsumNonneg : 0 ≤ x.base.toRat + x.quote.toRat)
    (hc : a.curve.coefficients d x = .ok c) (hv : a.curve.residual d x = .ok v) :
    |v.toRat - a.exactResidual d.toRat (x.map SignedDecimal.toRat)| ≤
      Decimal.ulp * (x.base.toRat + x.quote.toRat + |c.weight.toRat| + 5) +
        |c.weight.toRat - a.exactWeight (exactProduct d.toRat (x.map SignedDecimal.toRat))| *
          (d.toRat * |x.base.toRat + x.quote.toRat - d.toRat|) := by
  have hrounded := residual_near_computed hsumNonneg hc hv
  have hweighted : |(c.weight.toRat - a.exactWeight (exactProduct d.toRat
      (x.map SignedDecimal.toRat))) * (d.toRat * (x.base.toRat + x.quote.toRat - d.toRat))| =
      |c.weight.toRat - a.exactWeight (exactProduct d.toRat (x.map SignedDecimal.toRat))| *
        (d.toRat * |x.base.toRat + x.quote.toRat - d.toRat|) := by
    rw [abs_mul, abs_mul d.toRat, abs_of_pos hd]
  have hexact : v.toRat - a.exactResidual d.toRat (x.map SignedDecimal.toRat) =
      (v.toRat - (c.weight.toRat * d.toRat * (x.base.toRat + x.quote.toRat - d.toRat) +
        x.base.toRat * x.quote.toRat - d.toRat ^ 2 / 4)) +
      (c.weight.toRat - a.exactWeight (exactProduct d.toRat (x.map SignedDecimal.toRat))) *
        (d.toRat * (x.base.toRat + x.quote.toRat - d.toRat)) := by
    rw [exactResidual_eq, exactPull]
    simp only [Pair.map]
    ring
  rw [hexact]
  refine (abs_add_le _ _).trans ?_
  rw [hweighted]
  exact add_le_add hrounded le_rfl

/-- What the derivative is computed from: twice the weight, and how fast the weight changes with the
invariant. The other roundings are small, whatever `W` and `R` these two stand for. -/
theorem exists_rise_of_slopeInvariant (hd : 0 < d.toRat) (hc : a.curve.coefficients d x = .ok c)
    (hv : a.curve.slopeInvariant d x = .ok v) :
    ∃ twice grown lifted rise : SignedDecimal,
      (c.weight * SignedDecimal.two : Except Fault SignedDecimal) = .ok twice ∧
      grown.toRat = a.gamma.toRat + 1 + c.product.toRat ∧
      (twice * grown : Except Fault SignedDecimal) = .ok lifted ∧
      (lifted / c.gap : Except Fault SignedDecimal) = .ok rise ∧
      ∀ W R : ℚ, |v.toRat - ((-R + W) * (x.base.toRat + x.quote.toRat) - (-R + 2 * W) * d.toRat -
          d.toRat / 2)| ≤
        |rise.toRat - R| * |x.base.toRat + x.quote.toRat - d.toRat| +
          |c.weight.toRat - W| * (|x.base.toRat + x.quote.toRat - d.toRat| + d.toRat) +
          Decimal.ulp * (3 + d.toRat) := by
  simp only [Curve.slopeInvariant, bind_eq_ok] at hv
  obtain ⟨_, hc', twice, htwice, top, htop, grown, hgrown, lifted, hlifted, rise, hrise, first,
    hfirst, sum, hsum, upper, hupper, second, hsecond, lower, hlower, mid, hmid, half, hhalf,
    hv⟩ := hv
  obtain rfl := Except.ok.inj (hc.symm.trans hc')
  have htop := SignedDecimal.toRat_add htop
  have hgrown := SignedDecimal.toRat_add hgrown
  have hdouble := SignedDecimal.abs_mul_sub_le htwice
  have hfirst := SignedDecimal.toRat_add hfirst
  have hsum := SignedDecimal.toRat_add hsum
  have hupper := SignedDecimal.abs_mul_sub_le hupper
  have hsecond := SignedDecimal.toRat_add hsecond
  have hlower := SignedDecimal.abs_mul_sub_le hlower
  have hmid := SignedDecimal.toRat_sub hmid
  have hhalf := (SignedDecimal.abs_div_sub_le hhalf).2
  have hv := SignedDecimal.toRat_sub hv
  have hgammaSame : a.curve.gamma.toRat = a.gamma.toRat := SignedDecimal.toRat_toSigned _
  rw [SignedDecimal.toRat_two] at hdouble hhalf
  rw [hgammaSame, SignedDecimal.toRat_one] at htop
  rw [hfirst, SignedDecimal.toRat_neg, hsum] at hupper
  rw [hsecond, SignedDecimal.toRat_neg] at hlower
  have hvalue : v.toRat = upper.toRat - lower.toRat - half.toRat := by rw [hv, hmid]
  refine ⟨twice, grown, lifted, rise, htwice, by rw [hgrown, htop], hlifted, hrise, fun W R ↦ ?_⟩
  rw [hvalue]
  exact slope_rounded hd hdouble hupper hlower hhalf

/-- The roundings of the derivative, with those of the weight, which is off by at most `E`, and of
`K₀`. -/
theorem slope_error {E : ℚ} (hd : 0 < d.toRat) (hgamma : a.gamma.toRat ≤ 1 / 50)
    (hk : 0 < exactProduct d.toRat (x.map SignedDecimal.toRat))
    (hgap : 0 < a.exactGap d.toRat (x.map SignedDecimal.toRat))
    (hgapOne : a.exactGap d.toRat (x.map SignedDecimal.toRat) ≤ 51 / 50)
    (hfine : Decimal.ulp ≤ a.exactGap d.toRat (x.map SignedDecimal.toRat) / 600000)
    (hc : a.curve.coefficients d x = .ok c) (hv : a.curve.slopeInvariant d x = .ok v)
    (hproduct : |c.product.toRat - exactProduct d.toRat (x.map SignedDecimal.toRat)| ≤
      8 * Decimal.ulp)
    (hgap' : c.gap.toRat = a.gamma.toRat + 1 - c.product.toRat)
    (hweight : |c.weight.toRat - a.exactWeight (exactProduct d.toRat (x.map SignedDecimal.toRat))| ≤
      E) :
    |v.toRat - a.exactSlope d.toRat (x.map SignedDecimal.toRat)| ≤
      ((5 * Decimal.ulp + 41 / 10 * E) / a.exactGap d.toRat (x.map SignedDecimal.toRat) +
        34 * Decimal.ulp * a.exactWeight (exactProduct d.toRat (x.map SignedDecimal.toRat)) /
          a.exactGap d.toRat (x.map SignedDecimal.toRat) ^ 2) *
        |x.base.toRat + x.quote.toRat - d.toRat| +
      |c.weight.toRat - a.exactWeight (exactProduct d.toRat (x.map SignedDecimal.toRat))| *
        (|x.base.toRat + x.quote.toRat - d.toRat| + d.toRat) + Decimal.ulp * (3 + d.toRat) := by
  obtain ⟨twice, grown, lifted, rise, htwice, hgrown, hlifted, hrise, hrounded⟩ :=
    exists_rise_of_slopeInvariant hd hc hv
  have htwice := SignedDecimal.abs_mul_sub_le htwice
  have hlifted := SignedDecimal.abs_mul_sub_le hlifted
  have hrise := (SignedDecimal.abs_div_sub_le hrise).2
  rw [SignedDecimal.toRat_two] at htwice
  rw [hgrown] at hlifted
  have hulp := Decimal.ulp_pos
  have hriseNear := rise_near hulp (a.exactWeight_nonneg hk.le)
    (by linarith : a.gamma.toRat + 1 ≤ 51 / 50) hk hgap hgapOne rfl hgap' hfine hproduct hweight
    htwice hlifted hrise
  refine (hrounded (a.exactWeight (exactProduct d.toRat (x.map SignedDecimal.toRat))) _).trans ?_
  exact add_le_add_left
    (add_le_add_left (mul_le_mul_of_nonneg_right hriseNear (abs_nonneg _)) _) _

end Computed

/-- Eighteen places are enough around `d`: the curve is straight there on the scale of the
tolerance, the amplification is in range, and neither the balances nor the invariant, compared with
the concentration and the skew of the pool, are too large. -/
structure Resolved (a : AmpGamma) (d : ℚ) (x : Pair ℚ) : Prop where
  straight : a.Straight Limits.tolerance.toRat d x
  amp_ge : 2 / 5 ≤ a.amp.toRat
  large : 99 / 100 ≤ d
  sum_le : x.base + x.quote ≤ 10 ^ 12
  size_le : d ≤ 101 / 100 * 10 ^ 12 * (a.gamma.toRat * exactProduct d x)

namespace Resolved

section Exact

variable {a : AmpGamma} {d : ℚ} {x : Pair ℚ} (h : a.Resolved d x)
include h

theorem gamma_pos : 0 < a.gamma.toRat := by
  have hproduct : 0 < a.gamma.toRat * exactProduct d x := by
    have hlarge := h.large
    have hsize := h.size_le
    linarith
  exact pos_of_mul_pos_left hproduct (exactProduct_nonneg h.straight.balances d)

theorem product_pos : 0 < exactProduct d x := by
  have hproduct : 0 < a.gamma.toRat * exactProduct d x := by
    have hlarge := h.large
    have hsize := h.size_le
    linarith
  exact pos_of_mul_pos_right hproduct a.gamma.toRat_nonneg

theorem gap_le : a.exactGap d x ≤ 51 / 50 := by
  have hgamma := h.straight.gamma_le
  have hproduct := h.product_pos
  unfold exactGap
  linarith

theorem le : d ≤ 20604000000 := by
  have hproduct := mul_le_mul h.straight.gamma_le h.straight.product_le h.product_pos.le
    (by norm_num)
  have hsize := h.size_le
  linarith

theorem abs_sum_sub_le : |x.base + x.quote - d| ≤ 103 / 100 * 10 ^ 12 := by
  have hbase : 0 ≤ x.base := h.straight.balances .base
  have hquote : 0 ≤ x.quote := h.straight.balances .quote
  have hsum := h.sum_le
  have hd := h.le
  have hpos := h.straight.pos
  rw [abs_le]
  constructor
  · linarith
  · linarith

/-- The gap is far above one unit of the last place. -/
theorem ulp_le_gap : Decimal.ulp ≤ a.exactGap d x / 600000 := by
  have hgap := h.straight.gap_pos
  have hflat := h.straight.flat
  have hwide := mul_le_mul_of_nonneg_left h.le hgap.le
  rw [Limits.tolerance_toRat] at hflat
  rw [Decimal.ulp_eq]
  linarith

/-- The concentration is far above one unit of the last place. -/
theorem ulp_mul_gap_le : Decimal.ulp * a.exactGap d x ≤ a.gamma.toRat / 900000 := by
  have hproduct := mul_le_mul_of_nonneg_left h.straight.product_le h.gamma_pos.le
  have hsize := h.size_le
  have hlarge := h.large
  have hgap := h.gap_le
  rw [Decimal.ulp_eq]
  linarith

/-- What the three relative errors of the weight come to on the axis of the invariant. -/
theorem weight_error_le : Decimal.ulp * (11 / exactProduct d x + 19 / a.exactGap d x +
    5 * a.exactGap d x / (exactProduct d x * a.gamma.toRat)) * (a.exactGap d x * d) ≤
      6 / 10 ^ 6 := by
  have hk := h.product_pos
  have hγ := h.gamma_pos
  have hgap := h.straight.gap_pos
  have hgapOne := h.gap_le
  have hkOne := h.straight.product_le
  have hγOne := h.straight.gamma_le
  have hsize := h.size_le
  have hdPos := h.straight.pos
  rw [Decimal.ulp_eq]
  generalize exactProduct d x = k at *
  generalize a.exactGap d x = gap at *
  generalize a.gamma.toRat = γ at *
  -- The invariant is some multiple of `γ K₀`, which is bounded.
  obtain ⟨e, he⟩ : ∃ e, e * (γ * k) = d := ⟨d / (γ * k), div_mul_cancel₀ _ (by positivity)⟩
  have hePos : 0 < e := by
    rw [← he] at hdPos
    exact pos_of_mul_pos_left hdPos (by positivity)
  have heLe : e ≤ 101 / 100 * 10 ^ 12 := by
    rw [← he] at hsize
    exact le_of_mul_le_mul_right hsize (by positivity)
  have hgapγ : gap * γ ≤ 51 / 50 * (1 / 50) := mul_le_mul hgapOne hγOne hγ.le (by norm_num)
  have hγk : γ * k ≤ 1 / 50 * (51 / 50) := mul_le_mul hγOne hkOne hk.le (by norm_num)
  have hgapSq : gap ^ 2 ≤ (51 / 50) ^ 2 := pow_le_pow_left₀ hgap.le hgapOne 2
  have hexpand : 1 / 10 ^ 18 * (11 / k + 19 / gap + 5 * gap / (k * γ)) * (gap * d) =
      1 / 10 ^ 18 * (e * (11 * (gap * γ) + 19 * (γ * k) + 5 * gap ^ 2)) := by
    rw [← he]
    field_simp
  rw [hexpand]
  calc 1 / 10 ^ 18 * (e * (11 * (gap * γ) + 19 * (γ * k) + 5 * gap ^ 2))
      ≤ 1 / 10 ^ 18 * (101 / 100 * 10 ^ 12 *
          (11 * (51 / 50 * (1 / 50)) + 19 * (1 / 50 * (51 / 50)) + 5 * (51 / 50) ^ 2)) := by gcongr
    _ ≤ 6 / 10 ^ 6 := by norm_num

section Weight

variable {ε : ℚ} (hε : 0 ≤ ε) (hεAxis : ε * (a.exactGap d x * d) ≤ 6 / 10 ^ 6)
include hε hεAxis

/-- A part of the weight that is so small on the axis of the invariant is itself small. -/
theorem part_le : ε ≤ 1 / 2000 := by
  have hflat := mul_le_mul_of_nonneg_left h.straight.flat hε
  rw [Limits.tolerance_toRat] at hflat
  linarith

/-- What the error of how fast the weight changes comes to in the derivative. -/
theorem rise_error_le : ((5 * Decimal.ulp + 41 / 10 *
      (ε * a.exactWeight (exactProduct d x) + Decimal.ulp)) / a.exactGap d x +
      34 * Decimal.ulp * a.exactWeight (exactProduct d x) / a.exactGap d x ^ 2) *
        |x.base + x.quote - d| ≤ a.exactTilt d x / 250 := by
  have hgap := h.straight.gap_pos
  have htilt := h.straight.tilt_nonneg
  have hpull := h.straight.pull_add_le
  have hweight := a.exactWeight_nonneg h.product_pos.le
  have hweightPull : 0 ≤ a.exactWeight (exactProduct d x) * d :=
    mul_nonneg hweight h.straight.pos.le
  have hover : a.exactWeight (exactProduct d x) * |x.base + x.quote - d| / a.exactGap d x ≤
      a.exactTilt d x := (div_le_iff₀ hgap).mpr h.straight.weight_mul_le
  have hunits : (5 * Decimal.ulp + 41 / 10 * Decimal.ulp) / a.exactGap d x *
      |x.base + x.quote - d| ≤ d / 1300 := by
    have hflat := h.straight.flat
    rw [Limits.tolerance_toRat] at hflat
    rw [div_mul_eq_mul_div, div_le_iff₀ hgap, Decimal.ulp_eq]
    linarith [h.abs_sum_sub_le]
  have hrelative := mul_le_mul (h.part_le hε hεAxis) hover (by positivity) (by norm_num)
  have hgapUnits : Decimal.ulp / a.exactGap d x * (a.exactWeight (exactProduct d x) *
      |x.base + x.quote - d| / a.exactGap d x) ≤ 1 / 600000 * a.exactTilt d x := by
    refine mul_le_mul ?_ hover (by positivity) (by norm_num)
    rw [div_le_iff₀ hgap]
    linarith [h.ulp_le_gap]
  rw [rise_error_eq _ _ _ hgap.ne']
  linarith

variable {w : ℚ} (hw : |w - a.exactWeight (exactProduct d x)| ≤
  ε * a.exactWeight (exactProduct d x) + Decimal.ulp)
include hw

/-- A weight with such errors is itself right up to a two-thousandth and one unit. -/
theorem weight_le : |w| ≤ 2001 / 2000 * a.exactWeight (exactProduct d x) + Decimal.ulp := by
  have hweight := a.exactWeight_nonneg h.product_pos.le
  have hpart := mul_le_mul_of_nonneg_right (h.part_le hε hεAxis) hweight
  calc |w| ≤ |w - a.exactWeight (exactProduct d x)| + |a.exactWeight (exactProduct d x)| := by
        simpa using abs_add_le (w - a.exactWeight (exactProduct d x))
          (a.exactWeight (exactProduct d x))
    _ ≤ 2001 / 2000 * a.exactWeight (exactProduct d x) + Decimal.ulp := by
        rw [abs_of_nonneg hweight]
        linarith

/-- The roundings of `F`, with that of the weight. -/
theorem residual_error_le : Decimal.ulp * (x.base + x.quote + |w| + 5) +
    |w - a.exactWeight (exactProduct d x)| * (d * |x.base + x.quote - d|) ≤
      a.exactTilt d x / 50000 := by
  have hwLe := h.weight_le hε hεAxis hw
  have hd := h.straight.pos
  have hlarge := h.large
  have hsum := h.sum_le
  have hpull := h.straight.pull_add_le
  have hweight := a.exactWeight_nonneg h.product_pos.le
  have hweightPull := mul_le_mul_of_nonneg_left hlarge hweight
  have hdistance : 0 ≤ d * |x.base + x.quote - d| := mul_nonneg hd.le (abs_nonneg _)
  have hscaled := mul_le_mul_of_nonneg_right hw hdistance
  have hrelative := mul_le_mul_of_nonneg_left h.straight.weight_mul_le (mul_nonneg hε hd.le)
  have haxis := mul_le_mul_of_nonneg_right hεAxis h.straight.tilt_nonneg
  have hlast := mul_le_mul_of_nonneg_left h.abs_sum_sub_le hd.le
  rw [Decimal.ulp_eq] at *
  linarith

/-- What the error of the weight comes to in the derivative. -/
theorem weight_change_le : |w - a.exactWeight (exactProduct d x)| *
    (|x.base + x.quote - d| + d) ≤ a.exactTilt d x / 500 := by
  have hd := h.straight.pos
  have htilt := h.straight.tilt_nonneg
  have hpull := h.straight.pull_add_le
  have hlarge := h.large
  have hpart := h.part_le hε hεAxis
  have hweight := a.exactWeight_nonneg h.product_pos.le
  have hweightPull : 0 ≤ a.exactWeight (exactProduct d x) * d := mul_nonneg hweight hd.le
  have hdistance := h.abs_sum_sub_le
  have hdistanceNonneg := abs_nonneg (x.base + x.quote - d)
  have hscaled := mul_le_mul_of_nonneg_right hw (add_nonneg hdistanceNonneg hd.le)
  have hover : ε * (a.exactWeight (exactProduct d x) * |x.base + x.quote - d|) ≤
      1 / 2000 * (51 / 50 * a.exactTilt d x) := by
    refine mul_le_mul hpart ?_ (by positivity) (by norm_num)
    have hwide := mul_le_mul_of_nonneg_left h.gap_le htilt
    linarith [h.straight.weight_mul_le]
  have hsize : ε * (a.exactWeight (exactProduct d x) * d) ≤ 1 / 2000 * a.exactTilt d x :=
    mul_le_mul hpart (by linarith) hweightPull (by norm_num)
  rw [Decimal.ulp_eq] at *
  linarith

/-- The roundings of the derivative, with those of the weight. -/
theorem slope_error_le : ((5 * Decimal.ulp + 41 / 10 *
      (ε * a.exactWeight (exactProduct d x) + Decimal.ulp)) / a.exactGap d x +
      34 * Decimal.ulp * a.exactWeight (exactProduct d x) / a.exactGap d x ^ 2) *
        |x.base + x.quote - d| +
    |w - a.exactWeight (exactProduct d x)| * (|x.base + x.quote - d| + d) +
    Decimal.ulp * (3 + d) ≤ a.exactTilt d x / 50 := by
  have hrise := h.rise_error_le hε hεAxis
  have hchange := h.weight_change_le hε hεAxis hw
  have hlast : Decimal.ulp * (3 + d) ≤ a.exactTilt d x / 1000 := by
    have hweightPull := mul_nonneg (a.exactWeight_nonneg h.product_pos.le) h.straight.pos.le
    rw [Decimal.ulp_eq]
    linarith [h.straight.pull_add_le, h.large]
  linarith [h.straight.tilt_nonneg]

end Weight

end Exact

section Computed

variable {a : AmpGamma} {d : SignedDecimal} {x : Pair SignedDecimal} {c : Curve.Coefficients}
variable (h : a.Resolved d.toRat (x.map SignedDecimal.toRat))
include h

/-- The computed coefficients: `K₀` and the gap to a few units of the last place, and the weight up
to a relative error `ε` and one unit. -/
theorem coefficients_near (hc : a.curve.coefficients d x = .ok c) :
    ∃ ε, 0 ≤ ε ∧
      ε * (a.exactGap d.toRat (x.map SignedDecimal.toRat) * d.toRat) ≤ 6 / 10 ^ 6 ∧
      |c.product.toRat - exactProduct d.toRat (x.map SignedDecimal.toRat)| ≤ 8 * Decimal.ulp ∧
      c.gap.toRat = a.gamma.toRat + 1 - c.product.toRat ∧
      |c.weight.toRat - a.exactWeight (exactProduct d.toRat (x.map SignedDecimal.toRat))| ≤
        ε * a.exactWeight (exactProduct d.toRat (x.map SignedDecimal.toRat)) + Decimal.ulp := by
  have hulp := Decimal.ulp_pos
  have hk := h.product_pos
  have hγ := h.gamma_pos
  have hgapPos := h.straight.gap_pos
  exact ⟨_, by positivity, h.weight_error_le, coefficients_error h.large h.amp_ge hγ hk
    h.straight.product_le hgapPos h.ulp_le_gap h.ulp_mul_gap_le hc⟩

/-- `F` is computed to a fiftieth of the tolerance, on the axis of the invariant. -/
theorem residual_near {v : SignedDecimal} (hv : a.curve.residual d x = .ok v) :
    |v.toRat - a.exactResidual d.toRat (x.map SignedDecimal.toRat)| ≤
      a.exactTilt d.toRat (x.map SignedDecimal.toRat) / 50000 := by
  obtain ⟨c, hc, -⟩ := by simpa only [Curve.residual, bind_eq_ok] using hv
  obtain ⟨ε, hε, hεAxis, -, -, hweight⟩ := h.coefficients_near hc
  have hsum : 0 ≤ x.base.toRat + x.quote.toRat :=
    add_nonneg (h.straight.balances .base) (h.straight.balances .quote)
  exact (residual_error h.straight.pos hsum hc hv).trans (h.residual_error_le hε hεAxis hweight)

/-- The derivative is computed to a fiftieth of itself, or of what its terms come to. -/
theorem slope_near {v : SignedDecimal} (hv : a.curve.slopeInvariant d x = .ok v) :
    |v.toRat - a.exactSlope d.toRat (x.map SignedDecimal.toRat)| ≤
      a.exactTilt d.toRat (x.map SignedDecimal.toRat) / 50 := by
  obtain ⟨c, hc, -⟩ := by simpa only [Curve.slopeInvariant, bind_eq_ok] using hv
  obtain ⟨ε, hε, hεAxis, hproduct, hgap, hweight⟩ := h.coefficients_near hc
  exact (slope_error h.straight.pos h.straight.gamma_le h.product_pos h.straight.gap_pos h.gap_le
    h.ulp_le_gap hc hv hproduct hgap hweight).trans (h.slope_error_le hε hεAxis hweight)

end Computed

end Resolved

end AmpGamma

end ConcentratedPool
