import ConcentratedPool.Proofs.CurveRounding
import ConcentratedPool.Proofs.PoolInvariant

/-!
# How near the root the invariant is

The solver of the invariant stops after a step of Newton's method that is within the tolerance
(`AmpGamma.exists_last_step`). That alone says nothing of the distance to the root: where the
concentration is tiny, the curve starts so steep that the first step is short, and the root is far.

It does place the root within the tolerance where the curve is straight on the scale of the
tolerance, which is where the gap `γ + 1 - K₀` times the answer is at least sixteen times the
tolerance, and where the pool is neither too large nor too skewed for eighteen places
(`AmpGamma.invariant_straddles`). On a pool of a hundred units against one, at the usual
concentration, the answer is off by more than two hundred times the tolerance
(`AmpGamma.invariant_short_of_root`).
-/

set_option autoImplicit false
set_option relaxedAutoImplicit false

namespace ConcentratedPool

/-- An iteration that has settled ends with a step between neighbours that are close, and what every
step to a neighbour that is not close preserves holds where that last step starts. -/
theorem exists_step_of_settle_keeping {α : Type} {solver : Solver} {step : α → Except Fault α}
    {close : α → α → Except Fault Bool} {steps : ℕ} {x y : α} (Inv : α → Prop)
    (hkeep : ∀ x next, Inv x → step x = .ok next → close next x = .ok false → Inv next)
    (hx : Inv x) (h : settle solver step close steps x = .ok y) :
    ∃ last, Inv last ∧ step last = .ok y ∧ close y last = .ok true := by
  induction steps generalizing x with
  | zero => cases h
  | succ steps ih =>
    simp only [settle, bind_eq_ok] at h
    obtain ⟨next, hnext, isClose, hclose, h⟩ := h
    rcases branch_eq_ok.mp h with ⟨hend, h⟩ | ⟨hfar, h⟩
    · obtain rfl := pure_eq_ok.mp h
      rw [hend] at hclose
      exact ⟨x, hx, hnext, hclose⟩
    · rw [Bool.not_eq_true] at hfar
      rw [hfar] at hclose
      exact ih (hkeep x next hx hnext hclose) h

/-- An iteration that has settled ends with a step between neighbours that are close. -/
theorem exists_step_of_settle {α : Type} {solver : Solver} {step : α → Except Fault α}
    {close : α → α → Except Fault Bool} {steps : ℕ} {x y : α}
    (h : settle solver step close steps x = .ok y) :
    ∃ last, step last = .ok y ∧ close y last = .ok true := by
  obtain ⟨last, -, hstep, hclose⟩ :=
    exists_step_of_settle_keeping (fun _ ↦ True) (fun _ _ _ _ _ ↦ trivial) trivial h
  exact ⟨last, hstep, hclose⟩

namespace SignedDecimal

variable {a b c : SignedDecimal}

/-- The test compares the distance with the tolerance. -/
theorem isClose_eq_ok {close : Bool} (h : isClose a b = .ok close) :
    close = true ↔ |a.toRat - b.toRat| ≤ Limits.tolerance.toRat := by
  simp only [isClose, distance, bind_eq_ok, pure_eq_ok, ofRaw_eq_ok] at h
  obtain ⟨gap, hgap, rfl⟩ := h
  have hscale := Decimal.cast_scale_pos
  rw [toRat, toRat, ← sub_div, abs_div, abs_of_pos hscale, Decimal.toRat,
    div_le_div_iff_of_pos_right hscale, decide_eq_true_eq, le_def, hgap, ← Int.abs_eq_natAbs]
  norm_cast

/-- Neighbours that are close are within the tolerance. -/
theorem abs_sub_le_of_isClose (h : isClose a b = .ok true) :
    |a.toRat - b.toRat| ≤ Limits.tolerance.toRat :=
  (isClose_eq_ok h).mp rfl

/-- Neighbours that are not close are further apart than the tolerance. -/
theorem lt_abs_sub_of_isClose (h : isClose a b = .ok false) :
    Limits.tolerance.toRat < |a.toRat - b.toRat| :=
  not_le.mp (mt (isClose_eq_ok h).mpr Bool.false_ne_true)

/-- A rounded half that is positive belongs to at least twice as much. -/
theorem two_mul_raw_le_of_half (h : (a / two : Except Fault SignedDecimal) = .ok c)
    (hc : 0 < c.raw) : 2 * c.raw ≤ a.raw := by
  change ofRaw ((a.raw * Decimal.scale).tdiv (2 * Decimal.scale : ℕ)) = .ok c at h
  rw [ofRaw_eq_ok] at h
  have hsplit := Int.mul_tdiv_add_tmod (a.raw * Decimal.scale) (2 * Decimal.scale : ℕ)
  have hbelow := Int.lt_tmod_of_pos (a.raw * Decimal.scale)
    (by decide : (0 : ℤ) < (2 * Decimal.scale : ℕ))
  rw [← h] at hsplit
  have hrest : 0 ≤ a.raw → 0 ≤ (a.raw * Decimal.scale).tmod (2 * Decimal.scale : ℕ) := fun ha ↦
    Int.tmod_nonneg _ (mul_nonneg ha (Int.natCast_nonneg _))
  unfold Decimal.scale at *
  omega

end SignedDecimal

/-! ### The last step -/

/-- A step of Newton's method to a value above the tolerance, from a neighbour that is close, has
not halved that neighbour. -/
theorem exists_quotient_of_newtonStep {last v s next : SignedDecimal}
    (hstep : Curve.newtonStep last v s = .ok next)
    (hclose : |next.toRat - last.toRat| ≤ Limits.tolerance.toRat)
    (hlarge : Limits.tolerance.toRat < next.toRat) :
    ∃ q, (v / s : Except Fault SignedDecimal) = .ok q ∧ next.toRat = last.toRat - q.toRat := by
  simp only [Curve.newtonStep, bind_eq_ok] at hstep
  obtain ⟨q, hq, moved, hmoved, hstep⟩ := hstep
  rcases branch_eq_ok.mp hstep with ⟨-, hhalf⟩ | ⟨-, hkept⟩
  · exfalso
    have hscale := Decimal.cast_scale_pos
    have hpos : 0 < next.raw := by
      have hnext : 0 < next.toRat := Limits.tolerance.toRat_nonneg.trans_lt hlarge
      exact_mod_cast (div_pos_iff_of_pos_right hscale).mp hnext
    have hdouble : 2 * next.toRat ≤ last.toRat := by
      have hraw := SignedDecimal.two_mul_raw_le_of_half hhalf hpos
      rw [SignedDecimal.toRat, SignedDecimal.toRat, ← mul_div_assoc]
      exact div_le_div_of_nonneg_right (by exact_mod_cast hraw) hscale.le
    have hback := (abs_le.mp hclose).1
    linarith
  · obtain rfl := pure_eq_ok.mp hkept
    exact ⟨q, hq, SignedDecimal.toRat_sub hmoved⟩

namespace AmpGamma

variable {a : AmpGamma} {x : Pair Decimal} {d : Decimal}

/-- The invariant of two balances, if it is above the tolerance, comes from a last step of Newton's
method that was within the tolerance. -/
theorem exists_last_step (h : a.invariant x.toList = .ok d) (hlarge : Limits.tolerance < d) :
    ∃ last v s q : SignedDecimal, a.curve.residual last (x.map Decimal.toSigned) = .ok v ∧
      a.curve.slopeInvariant last (x.map Decimal.toSigned) = .ok s ∧
      (v / s : Except Fault SignedDecimal) = .ok q ∧ d.toRat = last.toRat - q.toRat ∧
      |q.toRat| ≤ Limits.tolerance.toRat := by
  simp only [invariant, positiveBalances, Pair.ofBalances, Pair.ofList?_toList, refuse_eq_ok,
    bind_eq_ok, pure_eq_ok, Curve.solveInvariant] at h
  obtain ⟨_, ⟨_, hx, -, rfl⟩, mean, -, start, -, next, hsettled, hvalue⟩ := h
  obtain rfl := Except.ok.inj hx
  have hvalue := SignedDecimal.toRat_of_toUnsigned hvalue
  obtain ⟨last, hstep, hclose⟩ := exists_step_of_settle hsettled
  have hclose := SignedDecimal.abs_sub_le_of_isClose hclose
  have hscale := Decimal.cast_scale_pos
  have hnext : Limits.tolerance.toRat < next.toRat := by
    rw [← hvalue]
    exact div_lt_div_of_pos_right (by exact_mod_cast Decimal.lt_def.mp hlarge) hscale
  simp only [Curve.stepInvariant, bind_eq_ok] at hstep
  obtain ⟨v, hv, s, hs, hstep⟩ := hstep
  obtain ⟨q, hq, hmoved⟩ := exists_quotient_of_newtonStep hstep hclose hnext
  refine ⟨last, v, s, q, hv, hs, hq, hvalue.trans hmoved, ?_⟩
  rw [hmoved, sub_sub_cancel_left, abs_neg] at hclose
  exact hclose

/-! ### Where the step was short because the root is near -/

/-- A neighbour of an answer of at least one, within a thousandth, is the answer times a factor
within a thousandth of one. -/
theorem ratio_bounds {e ρ : ℚ} (hlarge : 1 ≤ e) (hnear : |ρ * e - e| ≤ 1 / 1000) :
    999 / 1000 ≤ ρ ∧ ρ ≤ 1001 / 1000 := by
  obtain ⟨hbelow, habove⟩ := abs_le.mp hnear
  have he : 0 < e := by linarith
  exact ⟨le_of_mul_le_mul_right (by linarith) he, le_of_mul_le_mul_right (by linarith) he⟩

/-- The gap times the invariant, at a neighbour of the answer. The gap is a difference that moves
with `K₀`, by twice the relative step at most. -/
theorem gap_mul_of_near {e ρ : ℚ} {y : Pair ℚ} (hy : ∀ side, 0 ≤ y.get side)
    (hkOne : exactProduct e y ≤ 51 / 50) (hlow : 999 / 1000 ≤ ρ) (hhigh : ρ ≤ 1001 / 1000)
    (hflat : 16 / 1000 ≤ a.exactGap e y * e) (hbelow : -(1 / 1000) ≤ ρ * e - e) :
    13 / 1000 ≤ a.exactGap (ρ * e) y * (ρ * e) := by
  have hρ : 0 < ρ := by linarith
  have hk := exactProduct_nonneg hy e
  have hmoved := a.exactGap_mul (d := e) (x := y) hρ.ne'
  have hsq : 998 / 1000 ≤ ρ ^ 2 := by
    calc (998 / 1000 : ℚ) ≤ (999 / 1000) ^ 2 := by norm_num
      _ ≤ ρ ^ 2 := pow_le_pow_left₀ (by norm_num) hlow 2
  have hstep : -(2001 / 1000 * (1 / 1000)) ≤ (ρ ^ 2 - 1) * e := by
    have hfactor : (ρ ^ 2 - 1) * e = (ρ * e - e) * (ρ + 1) := by ring
    have hscaled := mul_le_mul_of_nonneg_right hbelow (by linarith : 0 ≤ ρ + 1)
    rw [hfactor]
    linarith
  have hdrift : -(51 / 50 * (2001 / 1000 * (1 / 1000))) ≤
      exactProduct e y * ((ρ ^ 2 - 1) * e) := by
    have hscaled := mul_le_mul_of_nonneg_left hstep hk
    linarith
  have hwide : 998 / 1000 * (16 / 1000) ≤ ρ ^ 2 * (a.exactGap e y * e) :=
    mul_le_mul hsq hflat (by norm_num) (sq_nonneg ρ)
  have hexpand : ρ * (a.exactGap (ρ * e) y * (ρ * e)) =
      ρ ^ 2 * (a.exactGap e y * e) + exactProduct e y * ((ρ ^ 2 - 1) * e) := by
    calc ρ * (a.exactGap (ρ * e) y * (ρ * e))
        = ρ ^ 2 * (a.exactGap e y * e) +
            e * ((a.exactGap (ρ * e) y - a.exactGap e y) * ρ ^ 2) := by ring
      _ = ρ ^ 2 * (a.exactGap e y * e) + exactProduct e y * ((ρ ^ 2 - 1) * e) := by
          rw [hmoved]
          ring
  refine le_of_mul_le_mul_left ?_ hρ
  rw [hexpand]
  linarith

/-- The invariant beside `γ K₀`, at a neighbour of the answer. -/
theorem size_of_near {e ρ : ℚ} {y : Pair ℚ} (he : 0 ≤ e) (hρ : 0 < ρ) (hhigh : ρ ≤ 1001 / 1000)
    (hsize : e ≤ 10 ^ 12 * (a.gamma.toRat * exactProduct e y)) :
    ρ * e ≤ 101 / 100 * 10 ^ 12 * (a.gamma.toRat * exactProduct (ρ * e) y) := by
  have hcube : ρ ^ 3 ≤ 101 / 100 := by
    calc ρ ^ 3 ≤ (1001 / 1000) ^ 3 := pow_le_pow_left₀ hρ.le hhigh 3
      _ ≤ 101 / 100 := by norm_num
  have hscaled := mul_le_mul hcube hsize he (by norm_num)
  rw [exactProduct_mul, ← mul_div_assoc, ← mul_div_assoc, le_div_iff₀ (by positivity)]
  calc ρ * e * ρ ^ 2 = ρ ^ 3 * e := by ring
    _ ≤ 101 / 100 * (10 ^ 12 * (a.gamma.toRat * exactProduct e y)) := hscaled
    _ = 101 / 100 * 10 ^ 12 * (a.gamma.toRat * exactProduct e y) := (mul_assoc _ _ _).symm

/-- Where the curve is straight and eighteen places are enough at the answer `e`, they are so at a
neighbour of the answer too. -/
theorem resolved_of_answer {e ρ : ℚ} {y : Pair ℚ} (ha : a.InRange) (hy : ∀ side, 0 ≤ y.get side)
    (hlarge : 1 ≤ e) (hflat : 16 * Limits.tolerance.toRat ≤ a.exactGap e y * e)
    (hsum : y.base + y.quote ≤ 10 ^ 12)
    (hsize : e ≤ 10 ^ 12 * (a.gamma.toRat * exactProduct e y))
    (hnear : |ρ * e - e| ≤ Limits.tolerance.toRat) : a.Resolved (ρ * e) y := by
  obtain ⟨⟨hamp, -⟩, -, hgamma⟩ := ha.toRat_bounds
  rw [Limits.tolerance_toRat] at hflat hnear
  obtain ⟨hlow, hhigh⟩ := ratio_bounds hlarge hnear
  have hbelow := (abs_le.mp hnear).1
  have hgap : 0 < a.exactGap e y :=
    pos_of_mul_pos_left (by linarith : 0 < a.exactGap e y * e) (by linarith)
  have hkOne : exactProduct e y ≤ 51 / 50 := by
    unfold exactGap at hgap
    linarith
  refine ⟨⟨?_, hy, hgamma, ?_, ?_⟩, hamp, by linarith, hsum,
    size_of_near (by linarith) (by linarith) hhigh hsize⟩
  · norm_num [Limits.tolerance_toRat]
  · rw [Limits.tolerance_toRat]
    linarith
  · have hwide : 16 / 1000 ≤ a.exactGap e y * e := by linarith
    rw [Limits.tolerance_toRat]
    linarith [gap_mul_of_near hy hkOne hlow hhigh hwide hbelow]

/-- Where eighteen places are enough, a computed step of Newton's method follows the exact tangent
up to a twentieth of the tolerance. -/
theorem Resolved.tangent_of_quotient {last v s q : SignedDecimal} {y : Pair SignedDecimal}
    (h : a.Resolved last.toRat (y.map SignedDecimal.toRat)) (hv : a.curve.residual last y = .ok v)
    (hs : a.curve.slopeInvariant last y = .ok s) (hq : (v / s : Except Fault SignedDecimal) = .ok q)
    (hstep : |q.toRat| ≤ Limits.tolerance.toRat) :
    |a.exactResidual last.toRat (y.map SignedDecimal.toRat) +
        a.exactSlope last.toRat (y.map SignedDecimal.toRat) * -q.toRat| ≤
      Limits.tolerance.toRat / 20 * a.exactTilt last.toRat (y.map SignedDecimal.toRat) := by
  obtain ⟨hne, hquotient⟩ := SignedDecimal.abs_div_sub_le hq
  exact abs_tangent_le h.straight.tilt_nonneg hne (h.residual_near hv) (h.slope_near hs)
    h.straight.abs_slope_le hquotient hstep

/-- The accuracy of the invariant. An invariant above the tolerance comes from a last step of
Newton's method that was within the tolerance. A root of the exact curve is within the tolerance of
it, in that `F` is not negative a tolerance before and not positive a tolerance further on, where
the curve is straight on the scale of the tolerance and the pool is not too large for eighteen
places: the gap times the invariant is at least sixteen tolerances, the balances are at most `10¹²`
in total, and the invariant is at least one and at most `10¹²` times `γ K₀`. -/
theorem invariant_straddles {amp gamma : Decimal} (ha : AmpGamma.new amp gamma = .ok a)
    (h : a.invariant x.toList = .ok d) (htolerance : Limits.tolerance < d) :
    (∃ last v s q : SignedDecimal, a.curve.residual last (x.map Decimal.toSigned) = .ok v ∧
      a.curve.slopeInvariant last (x.map Decimal.toSigned) = .ok s ∧
      (v / s : Except Fault SignedDecimal) = .ok q ∧ d.toRat = last.toRat - q.toRat ∧
      |q.toRat| ≤ Limits.tolerance.toRat) ∧
    (1 ≤ d.toRat →
      16 * Limits.tolerance.toRat ≤ a.exactGap d.toRat (x.map Decimal.toRat) * d.toRat →
      x.base.toRat + x.quote.toRat ≤ 10 ^ 12 →
      d.toRat ≤ 10 ^ 12 * (a.gamma.toRat * exactProduct d.toRat (x.map Decimal.toRat)) →
      0 ≤ a.exactResidual (d.toRat - Limits.tolerance.toRat) (x.map Decimal.toRat) ∧
        a.exactResidual (d.toRat + Limits.tolerance.toRat) (x.map Decimal.toRat) ≤ 0) := by
  obtain ⟨last, v, s, q, hv, hs, hq, hd, hstep⟩ := exists_last_step h htolerance
  refine ⟨⟨last, v, s, q, hv, hs, hq, hd, hstep⟩, fun hlarge hflat hsum hsize ↦ ?_⟩
  have hsame : (x.map Decimal.toSigned).map SignedDecimal.toRat = x.map Decimal.toRat := by
    simp only [Pair.map, SignedDecimal.toRat_toSigned]
  have hlast : last.toRat / d.toRat * d.toRat = last.toRat :=
    div_mul_cancel₀ _ (by linarith : d.toRat ≠ 0)
  have hnear : |last.toRat / d.toRat * d.toRat - d.toRat| ≤ Limits.tolerance.toRat := by
    rw [hlast, hd, sub_sub_cancel]
    exact hstep
  have hresolved := resolved_of_answer (new_eq_ok.mp ha).2
    (fun side ↦ by rw [Pair.get_map]; exact Decimal.toRat_nonneg _) hlarge hflat hsum hsize hnear
  rw [hlast, ← hsame] at hresolved
  have htangent := hresolved.tangent_of_quotient hv hs hq hstep
  have hback : |-q.toRat| ≤ Limits.tolerance.toRat := by rwa [abs_neg]
  have hboth := hresolved.straight.straddles hback htangent
  rw [hsame, ← sub_eq_add_neg, ← hd] at hboth
  exact hboth

/-- The curve parameters of the usual pool. -/
def usual : AmpGamma := ⟨Pool.usualParams.amp, Pool.usualParams.gamma⟩

/-- A thousand and eight hundred units. -/
def uneven : Pair Decimal :=
  ⟨⟨10 ^ 3 * Decimal.scale, by decide⟩, ⟨800 * Decimal.scale, by decide⟩⟩

/-- On a somewhat uneven pool a root is within the tolerance of the invariant. -/
theorem invariant_straddles_uneven :
    ∃ d, new Pool.usualParams.amp Pool.usualParams.gamma = .ok usual ∧
      usual.invariant uneven.toList = .ok d ∧
      0 ≤ usual.exactResidual (d.toRat - Limits.tolerance.toRat) (uneven.map Decimal.toRat) ∧
      usual.exactResidual (d.toRat + Limits.tolerance.toRat) (uneven.map Decimal.toRat) ≤ 0 := by
  obtain ⟨d, hd, hfine⟩ := exists_of_any (usual.invariant uneven.toList)
    (fun d ↦ Limits.tolerance < d ∧ 1 ≤ d.toRat ∧
      16 * Limits.tolerance.toRat ≤
        usual.exactGap d.toRat (uneven.map Decimal.toRat) * d.toRat ∧
      uneven.base.toRat + uneven.quote.toRat ≤ 10 ^ 12 ∧
      d.toRat ≤ 10 ^ 12 * (usual.gamma.toRat *
        exactProduct d.toRat (uneven.map Decimal.toRat))) (by decide +kernel)
  obtain ⟨htolerance, hlarge, hflat, hsum, hsize⟩ := of_decide_eq_true hfine
  have hnew : new Pool.usualParams.amp Pool.usualParams.gamma = .ok usual := rfl
  exact ⟨d, hnew, hd, (invariant_straddles hnew hd htolerance).2 hlarge hflat hsum hsize⟩

/-- One unit and a hundred units. -/
def skewed : Pair Decimal :=
  ⟨⟨Decimal.scale, by decide⟩, ⟨100 * Decimal.scale, by decide⟩⟩

/-- On a skewed pool the invariant is short of the root by more than two hundred tolerances. The gap
times the invariant is below five tolerances there, and the solver stops after its first step. -/
theorem invariant_short_of_root :
    ∃ d, new Pool.usualParams.amp Pool.usualParams.gamma = .ok usual ∧
      usual.invariant skewed.toList = .ok d ∧ Limits.tolerance < d ∧
      0 < usual.exactResidual (d.toRat - Limits.tolerance.toRat) (skewed.map Decimal.toRat) ∧
      0 < usual.exactResidual (d.toRat + Limits.tolerance.toRat) (skewed.map Decimal.toRat) ∧
      0 < usual.exactResidual (d.toRat + 200 * Limits.tolerance.toRat)
        (skewed.map Decimal.toRat) ∧
      usual.exactGap d.toRat (skewed.map Decimal.toRat) * d.toRat <
        5 * Limits.tolerance.toRat := by
  obtain ⟨d, hd, hshort⟩ := exists_of_any (usual.invariant skewed.toList)
    (fun d ↦ Limits.tolerance < d ∧
      0 < usual.exactResidual (d.toRat - Limits.tolerance.toRat) (skewed.map Decimal.toRat) ∧
      0 < usual.exactResidual (d.toRat + Limits.tolerance.toRat) (skewed.map Decimal.toRat) ∧
      0 < usual.exactResidual (d.toRat + 200 * Limits.tolerance.toRat)
        (skewed.map Decimal.toRat) ∧
      usual.exactGap d.toRat (skewed.map Decimal.toRat) * d.toRat <
        5 * Limits.tolerance.toRat) (by decide +kernel)
  exact ⟨d, rfl, hd, of_decide_eq_true hshort⟩

end AmpGamma

end ConcentratedPool
