import ConcentratedPool.Proofs.DecimalRounding
import ConcentratedPool.Proofs.SolverAccuracy
import ConcentratedPool.Quote.Stable
import Mathlib.Analysis.Real.Sqrt
import Mathlib.Tactic.LinearCombination

/-!
# How near the root the balance at a stable price is

The balance `y` beside the other one solves `y² + p y = c` with `p = b - d`. Newton's method for it
starts at `d`. Three facts about one exact step carry the argument: it does not end below the larger
root (`Stable.newton_sub_root`), where it starts above the root it ends no further from it than it
is long (`Stable.le_root_add_of_near`), and it keeps at least half of the slope `2 y + p`
(`Stable.half_slope_le`).

In eighteen places a step loses what the rounding of `y²` loses, divided by the slope, which can be
tiny. At `d` the slope is at least `d`, and `y²` loses no more than itself; after a step that was
longer than the tolerance the slope is at least the tolerance (`Stable.Steep.of_step`). So no step
loses more than `2 · 10⁻⁹` (`Stable.newton_rounded`). The answer is below the root by no more than
that, and above it by no more than the tolerance (`Stable.balance_near_root`); a trader gains by a
swap what it is below the root, at most.
-/

set_option autoImplicit false
set_option relaxedAutoImplicit false

namespace ConcentratedPool.Stable

/-! ### The larger root -/

section Root

variable {p c t y : ℝ}

/-- The larger root of `t² + p t = c`. -/
noncomputable def largerRoot (p c : ℝ) : ℝ := (√(p ^ 2 + 4 * c) - p) / (2 : ℕ)

theorem two_mul_largerRoot_add (p c : ℝ) : 2 * largerRoot p c + p = √(p ^ 2 + 4 * c) := by
  unfold largerRoot
  push_cast
  ring

theorem largerRoot_eq (hc : 0 ≤ c) : largerRoot p c ^ 2 + p * largerRoot p c - c = 0 := by
  have hsquare : √(p ^ 2 + 4 * c) ^ 2 = p ^ 2 + 4 * c := Real.sq_sqrt (by positivity)
  rw [← two_mul_largerRoot_add] at hsquare
  linarith

theorem largerRoot_nonneg (hc : 0 ≤ c) : 0 ≤ largerRoot p c := by
  have hle : p ≤ √(p ^ 2 + 4 * c) := Real.le_sqrt_of_sq_le (by linarith)
  unfold largerRoot
  push_cast
  linarith

/-- No root is larger. -/
theorem isGreatest_largerRoot (hc : 0 ≤ c) :
    IsGreatest {r : ℝ | r ^ 2 + p * r - c = 0} (largerRoot p c) := by
  refine ⟨largerRoot_eq hc, fun r hr ↦ ?_⟩
  change r ^ 2 + p * r - c = 0 at hr
  by_contra hlarger
  have hslope : 0 ≤ 2 * largerRoot p c + p := by
    rw [two_mul_largerRoot_add]
    exact Real.sqrt_nonneg _
  have hfactor : (r - largerRoot p c) * (r + largerRoot p c + p) = 0 := by
    linear_combination hr - largerRoot_eq (p := p) hc
  have hpos : 0 < (r - largerRoot p c) * (r + largerRoot p c + p) :=
    mul_pos (by linarith) (by linarith)
  exact hpos.ne' hfactor

/-! ### An exact step -/

/-- A step of Newton's method ends above the root by the square of the distance that it starts from
it, over the slope. -/
theorem newton_sub_root (hroot : t ^ 2 + p * t - c = 0) (hslope : 0 < 2 * y + p) :
    (y ^ 2 + c) / (2 * y + p) - t = (y - t) ^ 2 / (2 * y + p) := by
  rw [div_sub' hslope.ne', div_left_inj' hslope.ne']
  linear_combination -hroot

/-- What is no more than a step of Newton's method, and near where that started, is near the root or
below it. From above the root the step goes at least half of the way. -/
theorem le_root_add_of_near {next tol : ℝ} (hroot : t ^ 2 + p * t - c = 0)
    (hturn : 0 ≤ 2 * t + p) (hslope : 0 < 2 * y + p)
    (hnext : next ≤ (y ^ 2 + c) / (2 * y + p)) (hnear : |next - y| ≤ tol) : next ≤ t + tol := by
  obtain ⟨hback, hforth⟩ := abs_le.mp hnear
  rcases le_total y t with hbelow | habove
  · linarith
  · have hhalf : (y - t) ^ 2 / (2 * y + p) ≤ (y - t) / 2 := by
      rw [div_le_div_iff₀ hslope two_pos]
      have hroom := mul_nonneg (sub_nonneg.mpr habove) hturn
      linarith
    have hstep := newton_sub_root hroot hslope
    linarith

end Root

/-- A step of Newton's method keeps at least half of the slope. -/
theorem half_slope_le {p c y : ℚ} (hc : 0 ≤ c) (hslope : 0 < 2 * y + p) :
    (2 * y + p) / 2 ≤ 2 * ((y ^ 2 + c) / (2 * y + p)) + p := by
  have hexact : 2 * ((y ^ 2 + c) / (2 * y + p)) + p =
      (2 * y + p) / 2 + (p ^ 2 + 4 * c) / (2 * (2 * y + p)) := by
    field_simp
    ring
  rw [hexact]
  exact le_add_of_nonneg_right (by positivity)

/-! ### A rounded step -/

/-- A balance that is not negative, with a positive slope that is not small against it, or not small
at all. -/
structure Steep (p y : ℚ) : Prop where
  nonneg : 0 ≤ y
  slope_pos : 0 < 2 * y + p
  slope_ge : y ≤ 2 * y + p ∨ Limits.tolerance.toRat ≤ 2 * y + p

/-- What a square loses when it is rounded down is small against the slope. -/
theorem Steep.lost_le {p y square : ℚ} (h : Steep p y) (hsquare : 0 ≤ square)
    (hlost : y * y < square + Decimal.ulp) : (y * y - square) / (2 * y + p) ≤ 1 / 10 ^ 9 := by
  rw [div_le_iff₀ h.slope_pos]
  have hulp : Decimal.ulp = 1 / 10 ^ 18 := Decimal.ulp_eq
  rcases h.slope_ge with hlarge | hlarge
  · rcases le_total y (1 / 10 ^ 9) with hsmall | hsmall
    · have hproduct := mul_le_mul_of_nonneg_right hsmall h.nonneg
      linarith
    · linarith
  · rw [Limits.tolerance_toRat] at hlarge
    linarith

variable {b c d y next : SignedDecimal}

/-- A step from a steep balance ends no higher than an exact one, and no more than `2 · 10⁻⁹` below
it. -/
theorem newton_rounded (hsteep : Steep (b.toRat - d.toRat) y.toRat) (hc : 0 ≤ c.toRat)
    (h : stepBalance b c d y = .ok next) :
    0 ≤ next.toRat ∧
      next.toRat ≤ (y.toRat ^ 2 + c.toRat) / (2 * y.toRat + (b.toRat - d.toRat)) ∧
      (y.toRat ^ 2 + c.toRat) / (2 * y.toRat + (b.toRat - d.toRat)) - 2 / 10 ^ 9 ≤
        next.toRat := by
  simp only [stepBalance, bind_eq_ok] at h
  obtain ⟨square, hsquare, upper, hupper, twice, htwice, sum, hsum, slope, hslope, hnext⟩ := h
  have hslopeRat : slope.toRat = 2 * y.toRat + (b.toRat - d.toRat) := by
    rw [SignedDecimal.toRat_sub hslope, SignedDecimal.toRat_add hsum,
      SignedDecimal.toRat_mul_two htwice]
    ring
  rw [← hslopeRat]
  have hslopePos : 0 < slope.toRat := hslopeRat ▸ hsteep.slope_pos
  obtain ⟨hsquarePos, hsquareLe, hsquareLt⟩ :=
    SignedDecimal.mul_bounds_of_nonneg hsteep.nonneg hsteep.nonneg hsquare
  have hupperRat := SignedDecimal.toRat_add hupper
  obtain ⟨hnextPos, hnextLe, hnextLt⟩ :=
    SignedDecimal.div_bounds_of_nonneg (by linarith) hslopePos hnext
  have hlost := hsteep.lost_le hsquarePos hsquareLt
  rw [← hslopeRat] at hlost
  have hexact : (y.toRat ^ 2 + c.toRat) / slope.toRat =
      upper.toRat / slope.toRat + (y.toRat * y.toRat - square.toRat) / slope.toRat := by
    rw [← add_div, hupperRat]
    ring
  have hulp : Decimal.ulp = 1 / 10 ^ 18 := Decimal.ulp_eq
  have hlostPos : 0 ≤ (y.toRat * y.toRat - square.toRat) / slope.toRat :=
    div_nonneg (by linarith) hslopePos.le
  refine ⟨hnextPos, by linarith, by linarith⟩

/-- After a step that was longer than the tolerance the balance is steep. -/
theorem Steep.of_step (hsteep : Steep (b.toRat - d.toRat) y.toRat) (hc : 0 ≤ c.toRat)
    (h : stepBalance b c d y = .ok next)
    (hfar : Limits.tolerance.toRat < |next.toRat - y.toRat|) :
    Steep (b.toRat - d.toRat) next.toRat := by
  obtain ⟨hpos, -, habove⟩ := newton_rounded hsteep hc h
  have hhalf := half_slope_le hc hsteep.slope_pos
  have hslopePos := hsteep.slope_pos
  rw [Limits.tolerance_toRat] at hfar
  have hslope : Limits.tolerance.toRat ≤ 2 * next.toRat + (b.toRat - d.toRat) := by
    rw [Limits.tolerance_toRat]
    rcases lt_abs.mp hfar with hup | hdown
    · linarith
    · linarith
  have htolerance : 0 < Limits.tolerance.toRat := by norm_num [Limits.tolerance_toRat]
  exact ⟨hpos, htolerance.trans_le hslope, .inr hslope⟩

/-! ### The solver -/

/-- The coefficients `b` and `c` of the equation `y² + (b - d) y = c` for the balance beside `x`. -/
def coefficients (x d amp : Decimal) : Except Fault (SignedDecimal × SignedDecimal) := do
  let n := (← amp * Decimal.four).toSigned
  let sd := d.toSigned
  let square ← sd * sd
  let first ← square / (← x * Decimal.two).toSigned
  let c ← (← first * sd) / (← n * SignedDecimal.two)
  let b ← x.toSigned + (← sd / n)
  return (b, c)

/-- The balance is what Newton's method for these coefficients makes of the invariant. -/
theorem balance_eq (x d amp : Decimal) :
    balance x d amp = (do
      let (b, c) ← coefficients x d amp
      let y ← settle .stableBalance (stepBalance b c d.toSigned) SignedDecimal.isClose
        Limits.maxIterations d.toSigned
      y.toUnsigned) := by
  simp [balance, coefficients, bind_assoc]

section Solver

variable {x d amp y : Decimal} {b c : SignedDecimal}

/-- Where there are coefficients, `b` is positive and `c` is not negative. -/
theorem coefficients_bounds (h : coefficients x d amp = .ok (b, c)) :
    0 < b.toRat ∧ 0 ≤ c.toRat := by
  simp only [coefficients, bind_eq_ok, pure_eq_ok, Prod.mk.injEq] at h
  obtain ⟨n, -, square, hsquare, double, hdouble, first, hfirst, cubic, hcubic, lead, hlead, c', hc,
    part, hpart, b', hb, rfl, rfl⟩ := h
  have hnonneg : ∀ a : Decimal, 0 ≤ a.toSigned.toRat := fun a ↦ by
    rw [SignedDecimal.toRat_toSigned]
    exact a.toRat_nonneg
  have hpos : ∀ {a : SignedDecimal} {q : Decimal} {r : SignedDecimal},
      (a / q.toSigned : Except Fault SignedDecimal) = .ok r → 0 < q.toSigned.toRat := fun hdiv ↦
    lt_of_le_of_ne (hnonneg _) (SignedDecimal.abs_div_sub_le hdiv).1.symm
  have hn := hpos hpart
  obtain ⟨hsquarePos, -, -⟩ := SignedDecimal.mul_bounds_of_nonneg (hnonneg d) (hnonneg d) hsquare
  obtain ⟨hfirstPos, -, -⟩ := SignedDecimal.div_bounds_of_nonneg hsquarePos (hpos hfirst) hfirst
  obtain ⟨hcubicPos, -, -⟩ := SignedDecimal.mul_bounds_of_nonneg hfirstPos (hnonneg d) hcubic
  have hleadPos : 0 < lead.toRat := by
    rw [SignedDecimal.toRat_mul_two hlead]
    linarith
  obtain ⟨hcPos, -, -⟩ := SignedDecimal.div_bounds_of_nonneg hcubicPos hleadPos hc
  obtain ⟨hpartPos, -, -⟩ := SignedDecimal.div_bounds_of_nonneg (hnonneg d) hn hpart
  have hx : 0 < x.toSigned.toRat := by
    have hdoublePos : (0 : ℤ) < double.raw := SignedDecimal.toRat_pos.mp (hpos hfirst)
    have hproduct := Decimal.mul_raw_le hdouble
    have hless : 0 < x.raw * Decimal.two.raw :=
      (Nat.mul_pos (by exact_mod_cast hdoublePos) Decimal.scale_pos).trans_le hproduct
    exact SignedDecimal.toRat_pos.mpr (Int.natCast_pos.mpr (Nat.pos_of_mul_pos_right hless))
  refine ⟨?_, hcPos⟩
  rw [SignedDecimal.toRat_add hb]
  linarith

/-- A balance comes from a last step of Newton's method, from a steep balance within the
tolerance. -/
theorem exists_last_step (h : balance x d amp = .ok y) :
    ∃ b c last next, coefficients x d amp = .ok (b, c) ∧
      Steep (b.toRat - d.toSigned.toRat) last.toRat ∧ 0 ≤ c.toRat ∧
      stepBalance b c d.toSigned last = .ok next ∧
      |next.toRat - last.toRat| ≤ Limits.tolerance.toRat ∧ y.toRat = next.toRat := by
  simp only [balance_eq, bind_eq_ok, Prod.exists] at h
  obtain ⟨b, c, hcoefficients, next, hsettled, hy⟩ := h
  obtain ⟨hb, hc⟩ := coefficients_bounds hcoefficients
  have hd : 0 ≤ d.toSigned.toRat := by
    rw [SignedDecimal.toRat_toSigned]
    exact d.toRat_nonneg
  have hstart : Steep (b.toRat - d.toSigned.toRat) d.toSigned.toRat :=
    ⟨hd, by linarith, .inl (by linarith)⟩
  obtain ⟨last, hlast, hstep, hclose⟩ := exists_step_of_settle_keeping
    (fun y ↦ Steep (b.toRat - d.toSigned.toRat) y.toRat)
    (fun y next hsteep hstep hfar ↦
      hsteep.of_step hc hstep (SignedDecimal.lt_abs_sub_of_isClose hfar))
    hstart hsettled
  exact ⟨b, c, last, next, hcoefficients, hlast, hc, hstep,
    SignedDecimal.abs_sub_le_of_isClose hclose, SignedDecimal.toRat_of_toUnsigned hy⟩

/-- A balance is near the larger root: no more than `2 · 10⁻⁹` below it, and no more than the
tolerance above it. -/
theorem exists_root_of_balance (h : balance x d amp = .ok y) :
    ∃ b c, coefficients x d amp = .ok (b, c) ∧ 0 ≤ c.toRat ∧
      largerRoot (b.toRat - d.toRat) c.toRat - 2 / 10 ^ 9 ≤ y.toRat ∧
      y.toRat ≤ largerRoot (b.toRat - d.toRat) c.toRat + Limits.tolerance.toRat := by
  obtain ⟨b, c, last, next, hcoefficients, hsteep, hc, hstep, hnear, hy⟩ := exists_last_step h
  obtain ⟨-, hbelow, habove⟩ := newton_rounded hsteep hc hstep
  have hslope := hsteep.slope_pos
  rw [SignedDecimal.toRat_toSigned] at hslope hbelow habove
  have hcReal : (0 : ℝ) ≤ c.toRat := by exact_mod_cast hc
  have hslopeReal : (0 : ℝ) < 2 * last.toRat + (b.toRat - d.toRat) := by exact_mod_cast hslope
  have hbelowReal : (next.toRat : ℝ) ≤
      (last.toRat ^ 2 + c.toRat) / (2 * last.toRat + (b.toRat - d.toRat)) := by
    exact_mod_cast hbelow
  have haboveReal : ((last.toRat : ℝ) ^ 2 + c.toRat) / (2 * last.toRat + (b.toRat - d.toRat)) -
      2 / 10 ^ 9 ≤ next.toRat := by
    have hcast := (Rat.cast_le (K := ℝ)).mpr habove
    push_cast at hcast
    exact hcast
  have hnearReal : |(next.toRat : ℝ) - last.toRat| ≤ Limits.tolerance.toRat := by
    exact_mod_cast hnear
  have hroot := largerRoot_eq (p := (b.toRat : ℝ) - d.toRat) hcReal
  have hturn : 0 ≤ 2 * largerRoot (b.toRat - d.toRat) c.toRat + (b.toRat - d.toRat) := by
    rw [two_mul_largerRoot_add]
    exact Real.sqrt_nonneg _
  refine ⟨b, c, hcoefficients, hc, ?_, ?_⟩
  · have hstepRoot := newton_sub_root hroot hslopeReal
    have hsquare : 0 ≤ ((last.toRat : ℝ) - largerRoot (b.toRat - d.toRat) c.toRat) ^ 2 /
        (2 * last.toRat + (b.toRat - d.toRat)) := div_nonneg (sq_nonneg _) hslopeReal.le
    rw [hy]
    linarith
  · rw [hy]
    exact le_root_add_of_near hroot hturn hslopeReal hbelowReal hnearReal

end Solver

/-- The exact balance beside `x`: the larger root of the equation whose coefficients the solver
computes. It is not negative, and where `c` is positive no other root is. -/
def IsExactBalance (x d amp : Decimal) (t : ℝ) : Prop :=
  ∃ b c, coefficients x d amp = .ok (b, c) ∧ 0 ≤ t ∧
    IsGreatest {r : ℝ | r ^ 2 + (b.toRat - d.toRat) * r - c.toRat = 0} t

/-- The balance that the solver gives is accurate: it is no more than `10⁻⁸` below the exact one,
and no more than the tolerance above it. So a swap gives out, before the fee, no more than `10⁻⁸`
above what the exact balance leaves of the asked asset, for the invariant that is solved for the
pool. -/
theorem balance_near_root :
    (∀ x d amp y : Decimal, balance x d amp = .ok y →
      ∃ t, IsExactBalance x d amp t ∧ t - 1 / 10 ^ 8 ≤ y.toRat ∧
        y.toRat ≤ t + Limits.tolerance.toRat) ∧
    ∀ (pools : Pair Decimal) (side : Side) (offer amp rate : Decimal) (q : SwapQuote),
      quoteSwap pools side offer amp rate = .ok q →
      ∃ d x t, invariant pools amp = .ok d ∧
        (pools.get side + offer : Except Fault Decimal) = .ok x ∧ IsExactBalance x d amp t ∧
        (q.output.toRat : ℝ) + q.fee.toRat ≤ (pools.get side.other).toRat - t + 1 / 10 ^ 8 := by
  have hsolver : ∀ x d amp y : Decimal, balance x d amp = .ok y →
      ∃ t, IsExactBalance x d amp t ∧ t - 1 / 10 ^ 8 ≤ y.toRat ∧
        y.toRat ≤ t + Limits.tolerance.toRat := by
    intro x d amp y h
    obtain ⟨b, c, hcoefficients, hc, hbelow, habove⟩ := exists_root_of_balance h
    have hcReal : (0 : ℝ) ≤ c.toRat := by exact_mod_cast hc
    exact ⟨_, ⟨b, c, hcoefficients, largerRoot_nonneg hcReal, isGreatest_largerRoot hcReal⟩,
      by linarith, habove⟩
  refine ⟨hsolver, fun pools side offer amp rate q h ↦ ?_⟩
  simp only [quoteSwap, refuse_eq_ok, bind_eq_ok, pure_eq_ok] at h
  obtain ⟨d, hd, x, hx, y, hy, -, gross, hgross, fee, hfee, output, houtput, rfl⟩ := h
  obtain ⟨t, hexact, hbelow, -⟩ := hsolver x d amp y hy
  refine ⟨d, x, t, hd, hx, hexact, ?_⟩
  have hsplit : (output.toRat : ℝ) + fee.toRat = (pools.get side.other).toRat - y.toRat := by
    have hoff := Decimal.toRat_sub houtput
    have hout := Decimal.toRat_sub hgross
    have hsum : output.toRat + fee.toRat = (pools.get side.other).toRat - y.toRat := by linarith
    exact_mod_cast hsum
  rw [hsplit]
  linarith

/-- A thin side of three units of the last place beside an invariant of ten, where the balance is
far above the invariant, and a swap of one unit with ten and three at the amplification three. -/
theorem balance_near_root_thin :
    (∃ y t, balance ⟨3, by decide⟩ .ten .three = .ok y ∧
      IsExactBalance ⟨3, by decide⟩ .ten .three t ∧
      t - 1 / 10 ^ 8 ≤ y.toRat ∧ y.toRat ≤ t + Limits.tolerance.toRat) ∧
    ∃ q t, quoteSwap ⟨.ten, .three⟩ .base .one .three Limits.minFee = .ok q ∧
      (q.output.toRat : ℝ) + q.fee.toRat ≤ Decimal.three.toRat - t + 1 / 10 ^ 8 := by
  constructor
  · obtain ⟨y, hy, -⟩ := exists_of_any (balance ⟨3, by decide⟩ .ten .three) (fun _ ↦ true)
      (by decide +kernel)
    obtain ⟨t, ht⟩ := balance_near_root.1 _ _ _ _ hy
    exact ⟨y, t, hy, ht⟩
  · obtain ⟨q, hq, -⟩ := exists_of_any (quoteSwap ⟨.ten, .three⟩ .base .one .three Limits.minFee)
      (fun _ ↦ true) (by decide +kernel)
    obtain ⟨-, -, t, -, -, -, hout⟩ := balance_near_root.2 _ _ _ _ _ _ hq
    exact ⟨q, t, hq, hout⟩

end ConcentratedPool.Stable
