import ConcentratedPool.Proofs.CurveTangent
import ConcentratedPool.Proofs.ParameterRanges

/-!
# The basin of the root

`AmpGamma.Basin` is what holds of every iterate of the solver of the invariant: the gap is not much
narrower than the concentration, the invariant is not much above the sum of the balances, and it has
not passed the root by much. A start at the geometric mean of the balances is in it, and every step
that follows the tangent keeps it (`AmpGamma.Basin.next`): a step back ends near the root, and a
step forward asks for less than a whole reach (`AmpGamma.Basin.value_lt`).

In the basin the root is reached in three stages, which are one lemma each about one step:

* while the coefficient of the sum dominates the span, a step of almost a whole reach divides its
  share by three (`AmpGamma.Basin.steep_next`);
* then the odds of the rest of the span against the value grow (`AmpGamma.Basin.odds_next`);
* near the root the value is squared, up to what a step may be off the tangent
  (`AmpGamma.Basin.abs_value_next_le`).

All of this is in exact arithmetic. What rounding does to a step is not more than what
`Tangent.Follows` leaves to it; `StepRounding` shows that.
-/

set_option autoImplicit false
set_option relaxedAutoImplicit false

namespace ConcentratedPool

namespace AmpGamma

/-- Curve parameters in their ranges, and balances of one unit each at least and a hundred million
units in total at most. -/
structure Moderate (a : AmpGamma) (x : Pair ℚ) : Prop where
  inRange : a.InRange
  one_le : ∀ side, 1 ≤ x.get side
  sum_le : x.base + x.quote ≤ 10 ^ 8

/-- The iterates from which Newton's method finds the root: the gap is at least three quarters of
the concentration, the iterate is above the sum of the balances by no more than a tenth of the
reach, and the value is below zero by no more than a fifth of the span. -/
structure Basin (a : AmpGamma) (d : ℚ) (x : Pair ℚ) : Prop where
  pos : 0 < d
  gap_ge : 3 / 4 * a.gamma.toRat ≤ a.exactGap d x
  room_ge : -((a.tangent d x).reach / 10) ≤ (a.tangent d x).room
  value_ge : -((a.tangent d x).span / 5) ≤ (a.tangent d x).value

variable {a : AmpGamma} {d ρ : ℚ} {x : Pair ℚ}

namespace Moderate

variable (hs : a.Moderate x)
include hs

theorem gamma_ge : 1 / 10 ^ 7 ≤ a.gamma.toRat := hs.inRange.toRat_bounds.2.1

theorem gamma_le : a.gamma.toRat ≤ 1 / 50 := hs.inRange.toRat_bounds.2.2

theorem amp_ge : 2 / 5 ≤ a.amp.toRat := hs.inRange.toRat_bounds.1.1

theorem amp_le : a.amp.toRat ≤ 400000 := hs.inRange.toRat_bounds.1.2

theorem amp_pos : 0 < a.amp.toRat := lt_of_lt_of_le (by norm_num) hs.amp_ge

theorem gamma_pos : 0 < a.gamma.toRat := lt_of_lt_of_le (by norm_num) hs.gamma_ge

theorem nonneg (side : Side) : 0 ≤ x.get side := zero_le_one.trans (hs.one_le side)

theorem base_ge : 1 ≤ x.base := hs.one_le .base

theorem quote_ge : 1 ≤ x.quote := hs.one_le .quote

theorem product_pos (hd : 0 < d) : 0 < exactProduct d x := by
  have hbase := hs.base_ge
  have hquote := hs.quote_ge
  unfold exactProduct
  positivity

end Moderate

/-! ### The bounds of a step -/

section Moderate

variable (hs : a.Moderate x)
include hs

/-- While the gap is open, the sum of the balances enters `F` with a positive coefficient. -/
theorem exactPull_pos (hd : 0 < d) (hgap : 0 < a.exactGap d x) : 0 < a.exactPull d x := by
  have hk := hs.product_pos hd
  have hgamma := hs.gamma_pos
  have hamp := hs.amp_pos
  have hgapSq : 0 < (a.gamma.toRat + 1 - exactProduct d x) ^ 2 := pow_pos hgap 2
  unfold exactPull exactWeight
  positivity

theorem tangent_regular (hd : 0 < d) (hgap : 0 < a.exactGap d x) : (a.tangent d x).Regular := by
  have hk := hs.product_pos hd
  exact ⟨exactPull_pos hs hd hgap, mul_pos (exactShare_pos hk hgap) hd,
    mul_le_of_le_one_left hd.le (exactShare_le_one hk hgap)⟩

/-- A step forward of little more than a reach, at any point of the curve with an open gap. -/
theorem tangent_ahead (hd : 0 < d) (hgap : 0 < a.exactGap d x) (hρ : 0 ≤ ρ) (hfar : ρ ≤ 21 / 20) :
    (a.tangent d x).Ahead ρ (pullRatio (a.exactShare d x) ρ) (reachRatio (a.exactShare d x) ρ) := by
  have hk := hs.product_pos hd
  have hb := (exactShare_pos hk hgap).le
  have hone := exactShare_le_one hk hgap
  have hreach := le_reachRatio hb hone hρ
  have hshare : 0 ≤ ρ * a.exactShare d x := mul_nonneg hρ hb
  refine ⟨hρ, hfar, mul_pullRatio_le hb hone hρ (by linarith),
    one_le_sq_mul_pullRatio hb hone hρ, by linarith, ?_, ?_⟩
  · have hcube := mul_le_mul_of_nonneg_right (cube_mul_pullRatio_le hb hone hρ (by linarith)) hd.le
    simp only [tangent]
    linarith
  · have hsq := mul_le_mul_of_nonneg_right (sq_mul_le_reachRatio hb hone hρ hfar) hd.le
    simp only [tangent]
    linarith

/-- A short step, at any point of the curve with an open gap. -/
theorem tangent_near (hd : 0 < d) (hgap : 0 < a.exactGap d x) (hlow : -(21 / 100) ≤ ρ)
    (hhigh : ρ ≤ 31 / 100) :
    (a.tangent d x).Near ρ (pullRatio (a.exactShare d x) ρ) (reachRatio (a.exactShare d x) ρ) := by
  have hk := hs.product_pos hd
  have hb := (exactShare_pos hk hgap).le
  have hone := exactShare_le_one hk hgap
  rcases le_total 0 ρ with hρ | hρ
  · have hreach := le_reachRatio hb hone hρ
    have hshare : 0 ≤ ρ * a.exactShare d x := mul_nonneg hρ hb
    have hdown := one_le_sq_mul_pullRatio hb hone hρ
    refine ⟨hlow, hhigh, pullRatio_mul_le hb hone hρ, ?_, by linarith, ?_⟩
    · -- The square of `1 + ρ / 2` is hardly more than `1 + ρ`.
      have hup : (1 + ρ / 2) ^ 2 * (1 - 2 / 5 * ρ ^ 2) ≤ 1 + ρ := by
        nlinarith [pow_nonneg hρ 3, pow_nonneg hρ 4]
      have hscaled := mul_le_mul_of_nonneg_left hdown (by linarith : 0 ≤ 1 + ρ)
      refine le_of_mul_le_mul_left ?_ (by positivity : 0 < (1 + ρ / 2) ^ 2)
      linarith
    · simp only [tangent]
      have hnext : d ≤ d + ρ * (a.exactShare d x * d) := by
        have := mul_nonneg hshare hd.le
        linarith
      calc d = 1 * d := (one_mul d).symm
        _ ≤ 2 * reachRatio (a.exactShare d x) ρ * (d + ρ * (a.exactShare d x * d)) :=
            mul_le_mul (by linarith) hnext hd.le (by linarith)
  · have hreach := le_reachRatio_of_nonpos hb hone hlow hρ
    refine ⟨hlow, hhigh, pullRatio_mul_le_of_nonpos hb hone hlow hρ,
      le_pullRatio_mul_of_nonpos hb hone hlow hρ, by linarith, ?_⟩
    simp only [tangent]
    have hback := (mul_nonpos_bounds hb hlow hρ).1
    have hnext : 79 / 100 * d ≤ d + ρ * (a.exactShare d x * d) := by
      have := mul_le_mul_of_nonneg_right (by linarith : -(21 / 100) ≤ a.exactShare d x * ρ) hd.le
      linarith
    calc d = 1 * d := (one_mul d).symm
      _ ≤ 137 / 100 * (79 / 100 * d) := by linarith
      _ ≤ 2 * reachRatio (a.exactShare d x) ρ * (d + ρ * (a.exactShare d x * d)) :=
          mul_le_mul (by linarith) hnext (by linarith) (by linarith)

end Moderate

/-! ### The basin -/

namespace Basin

variable (h : a.Basin d x) (hs : a.Moderate x)
include h hs

theorem gap_pos : 0 < a.exactGap d x := by
  have hgamma := hs.gamma_pos
  linarith [h.gap_ge]

theorem regular : (a.tangent d x).Regular := tangent_regular hs h.pos (h.gap_pos hs)

omit hs in
/-- `K₀` is hardly above one. -/
theorem product_le : exactProduct d x ≤ 1 + a.gamma.toRat / 4 := by
  have hgap := h.gap_ge
  unfold exactGap at hgap
  linarith

omit hs in
theorem product_mul_sq : exactProduct d x * d ^ 2 = 4 * (x.base * x.quote) :=
  div_mul_cancel₀ _ (pow_ne_zero 2 h.pos.ne')

omit hs in
/-- The square of the invariant hardly lacks anything of the product of the balances. -/
theorem lack_ge : -(a.gamma.toRat / 16 * d ^ 2) ≤ (a.tangent d x).lack := by
  have harea := h.product_mul_sq
  have hscaled := mul_le_mul_of_nonneg_right (h.product_le) (sq_nonneg d)
  simp only [tangent]
  linarith

/-- The part of the invariant that the reach is, is not small beside the concentration. -/
theorem share_ge : 3 / 4 * a.gamma.toRat ≤ 41 / 10 * a.exactShare d x := by
  have hk := hs.product_pos h.pos
  have hgap := h.gap_pos hs
  have hle : a.exactGap d x + 4 * exactProduct d x ≤ 41 / 10 := by
    unfold exactGap
    linarith [h.product_le, hs.gamma_le]
  have hscaled := mul_le_mul_of_nonneg_left hle (exactShare_pos hk hgap).le
  rw [exactShare_mul hk hgap] at hscaled
  linarith [h.gap_ge]

/-- The tangent asks for less than a whole reach. -/
theorem value_lt : (a.tangent d x).value < (a.tangent d x).span := by
  have hhalf := mul_le_mul_of_nonneg_right (h.share_ge hs) (sq_nonneg d)
  have hlack := h.lack_ge
  have hturn := mul_pos (h.regular hs).pull_pos (h.regular hs).reach_pos
  have hsize : (a.tangent d x).reach * (a.tangent d x).size = a.exactShare d x * d ^ 2 := by
    simp only [tangent]
    ring
  have hgammaSq := mul_pos hs.gamma_pos (pow_pos h.pos 2)
  unfold Tangent.value Tangent.span
  linarith

/-- Before the root the invariant is not above the sum of the balances. -/
theorem room_nonneg (hvalue : 0 < (a.tangent d x).value) : 0 ≤ (a.tangent d x).room := by
  by_contra hneg
  have hsum : x.base + x.quote ≤ d := by
    simp only [tangent, not_le] at hneg
    linarith
  have := exactResidual_nonpos (a := a) h.pos hs.nonneg hsum
  rw [tangent_value] at hvalue
  linarith

/-- The product of the balances exceeds the square of the invariant by not much more than half of
the room. -/
theorem neg_lack_le (hroom : 0 ≤ (a.tangent d x).room) :
    -(a.tangent d x).lack ≤ 51 / 100 * ((a.tangent d x).size * (a.tangent d x).room) := by
  have hd := h.pos
  have hlack := h.lack_ge
  have hgamma := mul_le_mul_of_nonneg_right hs.gamma_le (sq_nonneg d)
  have hmean : -(a.tangent d x).lack ≤
      (a.tangent d x).room * (2 * d + (a.tangent d x).room) / 4 := by
    simp only [tangent]
    linarith [sq_nonneg (x.base - x.quote)]
  have hsize : (a.tangent d x).size = d := rfl
  rw [hsize]
  generalize (a.tangent d x).room = room at *
  rcases le_total room (d / 25) with hless | hmore
  · linarith [mul_le_mul_of_nonneg_left hless hroom]
  · nlinarith [mul_le_mul_of_nonneg_left hmore hd.le]

theorem span_pos : 0 < (a.tangent d x).span := by
  linarith [h.value_ge, h.value_lt hs]

section Step

variable (hfollows : (a.tangent d x).Follows ρ)
include hfollows

/-- A step goes back by a fifth of a reach at most, up to its rounding, and forward by one. -/
theorem step_bounds : -(21 / 100) ≤ ρ ∧ ρ ≤ 21 / 20 := by
  have hspan := h.span_pos hs
  have hback := h.value_ge
  have hahead := h.value_lt hs
  constructor
  · by_contra hfar
    have hρ : ρ ≤ 0 := by linarith
    have hstep := mul_lt_mul_of_pos_right (not_le.mp hfar) hspan
    linarith [(hfollows.mul_span_le_of_nonpos hρ).2]
  · by_contra hfar
    have hρ : 0 ≤ ρ := by linarith
    have hstep := mul_lt_mul_of_pos_right (not_le.mp hfar) hspan
    linarith [(hfollows.mul_span_le hρ).1]

theorem factors_pos : 0 < 1 + a.exactShare d x * ρ ∧ 0 < widening (a.exactShare d x) ρ :=
  have hk := hs.product_pos h.pos
  have hgap := h.gap_pos hs
  widening_pos (exactShare_pos hk hgap).le (exactShare_le_one hk hgap)
    (h.step_bounds hs hfollows).1

/-- The tangent after a step. -/
theorem tangent_next : a.tangent (a.moved d x ρ) x =
    (a.tangent d x).move ρ (pullRatio (a.exactShare d x) ρ) (reachRatio (a.exactShare d x) ρ) := by
  obtain ⟨hz, hw⟩ := h.factors_pos hs hfollows
  exact tangent_move (hs.product_pos h.pos) (h.gap_pos hs) hz hw

/-- A step back keeps the basin: its end is near the root. -/
theorem next_of_neg (hρ : ρ < 0) : a.Basin (a.moved d x ρ) x := by
  have hd := h.pos
  have hgap := h.gap_pos hs
  have hk := hs.product_pos hd
  have hb := (exactShare_pos hk hgap).le
  have hone := exactShare_le_one hk hgap
  have hspan := h.span_pos hs
  have ht := h.regular hs
  obtain ⟨hlow, -⟩ := h.step_bounds hs hfollows
  obtain ⟨hz, -⟩ := h.factors_pos hs hfollows
  have hmoved := h.tangent_next hs hfollows
  have hnear := tangent_near hs hd hgap hlow (by linarith)
  have hvalue : (a.tangent d x).value < 0 := by
    have := mul_neg_of_neg_of_pos hρ hspan
    linarith [(hfollows.mul_span_le_of_nonpos hρ.le).2]
  -- Beyond the root `K₀` is below one, because `F` is not negative from one on.
  have hwide : a.gamma.toRat ≤ a.exactGap d x := by
    by_contra hless
    have heven : 1 ≤ exactProduct d x := by
      unfold exactGap at hless
      linarith
    have hsupports := supports_of_one_le (a := a) hd hs.nonneg heven
    rw [tangent_value] at hvalue
    exact absurd hsupports (not_le.mpr hvalue)
  refine ⟨mul_pos hz hd, ?_, ?_, ?_⟩
  · have hback := mul_sq_le_widening_of_nonpos hb hone hlow hρ.le
    have hzSq : 0 < (1 + a.exactShare d x * ρ) ^ 2 := by positivity
    refine le_of_mul_le_mul_right ?_ hzSq
    rw [moved, exactGap_move hk hgap hz]
    have hscaled := mul_le_mul hwide hback (by positivity) hgap.le
    linarith [mul_pos hs.gamma_pos hzSq]
  · have hreach := le_reachRatio_of_nonpos hb hone hlow hρ.le
    have hscaled := mul_le_mul_of_nonneg_right hreach ht.reach_pos.le
    have hstep := mul_nonpos_of_nonpos_of_nonneg hρ.le ht.reach_pos.le
    rw [hmoved]
    simp only [Tangent.move]
    linarith [h.room_ge]
  · have hnext := hnear.abs_value_le ht h.room_ge hfollows
    have hsmall : 2 * ρ ^ 2 + |ρ| / 50 ≤ 1 / 5 := by
      rw [abs_of_neg hρ]
      nlinarith
    have hspan' := hnear.span_le ht h.room_ge
    have hscaled := mul_le_mul_of_nonneg_right hsmall
      (by linarith : 0 ≤ ((a.tangent d x).move ρ (pullRatio (a.exactShare d x) ρ)
        (reachRatio (a.exactShare d x) ρ)).span)
    rw [hmoved]
    linarith [(abs_le.mp hnext).1]

/-- A step forward keeps the basin. -/
theorem next_of_pos (hρ : 0 < ρ) : a.Basin (a.moved d x ρ) x := by
  have hd := h.pos
  have hgap := h.gap_pos hs
  have hk := hs.product_pos hd
  have hb := (exactShare_pos hk hgap).le
  have hone := exactShare_le_one hk hgap
  have ht := h.regular hs
  obtain ⟨-, hhigh⟩ := h.step_bounds hs hfollows
  obtain ⟨hz, -⟩ := h.factors_pos hs hfollows
  have hmoved := h.tangent_next hs hfollows
  have hroom := h.room_nonneg hs ((hfollows.pos_iff (h.span_pos hs)).mp hρ)
  have hahead := tangent_ahead hs hd hgap hρ.le hhigh
  refine ⟨mul_pos hz hd, ?_, ?_, ?_⟩
  · have hgrown := sq_le_widening hb hone hρ.le
    have hzSq : 0 < (1 + a.exactShare d x * ρ) ^ 2 := by positivity
    refine le_of_mul_le_mul_right ?_ hzSq
    rw [moved, exactGap_move hk hgap hz]
    exact mul_le_mul h.gap_ge hgrown hzSq.le hgap.le
  · rw [hmoved]
    exact hahead.room_ge ht hroom (h.neg_lack_le hs hroom) hfollows
  · rw [hmoved]
    exact hahead.value_ge ht hroom hfollows

/-- A step that follows the tangent keeps the basin. -/
theorem next : a.Basin (a.moved d x ρ) x := by
  rcases lt_trichotomy ρ 0 with hneg | rfl | hpos
  · exact h.next_of_neg hs hfollows hneg
  · simpa [moved] using h
  · exact h.next_of_pos hs hfollows hpos

/-- Near the root the value, as a part of the span, is squared by a step, up to what the step may be
off the tangent. -/
theorem abs_value_next_le {q : ℚ} (hq : q ≤ 3 / 10)
    (hsmall : |(a.tangent d x).value| ≤ q * (a.tangent d x).span) :
    |(a.tangent (a.moved d x ρ) x).value| ≤
      q * (41 / 20 * q + 21 / 1000) * (a.tangent (a.moved d x ρ) x).span := by
  have ht := h.regular hs
  have hspan' := (h.next hs hfollows).span_pos hs
  have hstep := hfollows.abs_le (h.span_pos hs) hsmall
  obtain ⟨hlow, -⟩ := h.step_bounds hs hfollows
  have hhigh : ρ ≤ 31 / 100 := by linarith [le_abs_self ρ]
  have hnear := tangent_near hs h.pos (h.gap_pos hs) hlow hhigh
  have hnext := hnear.abs_value_le ht h.room_ge hfollows
  have hfactor : 2 * ρ ^ 2 + |ρ| / 50 ≤ q * (41 / 20 * q + 21 / 1000) := by
    have hsq : ρ ^ 2 ≤ (100 / 99 * q) ^ 2 := sq_le_sq' (by linarith [neg_abs_le ρ])
      (by linarith [le_abs_self ρ])
    have hnonneg := (abs_nonneg ρ).trans hstep
    linarith [sq_nonneg q]
  rw [← h.tangent_next hs hfollows] at hnext
  exact hnext.trans (mul_le_mul_of_nonneg_right hfactor hspan'.le)

/-! ### Before the root -/

section Ahead

variable (hvalue : 0 < (a.tangent d x).value)
include hvalue

theorem ahead : (a.tangent d x).Ahead ρ (pullRatio (a.exactShare d x) ρ)
    (reachRatio (a.exactShare d x) ρ) :=
  tangent_ahead hs h.pos (h.gap_pos hs) ((hfollows.pos_iff (h.span_pos hs)).mpr hvalue).le
    (h.step_bounds hs hfollows).2

/-- The odds of the rest of the span against the value grow, from `o` by the factor
`1 + 99 / 200 / (1 + o)` at least. -/
theorem odds_next (hlack : 0 ≤ (a.tangent d x).lack) {o : ℚ} (ho : 0 < o)
    (hodds : o * (a.tangent d x).value ≤ (a.tangent d x).span - (a.tangent d x).value) :
    o * (1 + 99 / 200 / (1 + o)) * (a.tangent (a.moved d x ρ) x).value ≤
      (a.tangent (a.moved d x ρ) x).span - (a.tangent (a.moved d x ρ) x).value := by
  have hgrown := (h.ahead hs hfollows hvalue).odds_growth (h.regular hs) hlack hvalue.le
  have hlast := (h.next hs hfollows).value_lt hs
  have hstepped := hfollows.odds_le (h.span_pos hs) hvalue ho hodds
  rw [← h.tangent_next hs hfollows] at hgrown
  rcases le_total (a.tangent (a.moved d x ρ) x).value 0 with hneg | hpos
  · have hbeyond : o * (1 + 99 / 200 / (1 + o)) * (a.tangent (a.moved d x ρ) x).value ≤ 0 :=
      mul_nonpos_of_nonneg_of_nonpos (by positivity) hneg
    linarith
  · refine le_of_mul_le_mul_right ?_ hvalue
    have hscaled := mul_le_mul_of_nonneg_right hstepped hpos
    linarith

/-- What the square of the invariant lacks of the product of the balances only grows. -/
theorem lack_next (hlack : 0 ≤ (a.tangent d x).lack) :
    0 ≤ (a.tangent (a.moved d x ρ) x).lack := by
  have hρ := (h.ahead hs hfollows hvalue).nonneg
  have ht := h.regular hs
  have hgrown : 0 ≤ ρ * (a.tangent d x).reach * (a.tangent d x).size :=
    mul_nonneg (mul_nonneg hρ ht.reach_pos.le) (ht.reach_pos.le.trans ht.reach_le)
  rw [h.tangent_next hs hfollows]
  simp only [Tangent.move]
  linarith [sq_nonneg (ρ * (a.tangent d x).reach)]

/-- Where the coefficient's part is at most `c m` times the product of reach and invariant, it is at
most `m` times theirs after a step that is long enough for `c`. -/
theorem steep_next {c m : ℚ} (hc : 0 < c) (hcube : c ≤ (1 + ρ / 2) ^ 3) (hm : 0 ≤ m)
    (hsteep : (a.tangent d x).pull * (a.tangent d x).room ≤
      c * m * ((a.tangent d x).reach * (a.tangent d x).size)) :
    (a.tangent (a.moved d x ρ) x).pull *
        (a.tangent (a.moved d x ρ) x).room ≤
      m * ((a.tangent (a.moved d x ρ) x).reach *
        (a.tangent (a.moved d x ρ) x).size) := by
  have ht := h.regular hs
  have ht' := (h.next hs hfollows).regular hs
  have hgrown := (h.ahead hs hfollows hvalue).cube_growth ht (h.room_nonneg hs hvalue)
  rw [← h.tangent_next hs hfollows] at hgrown
  generalize a.tangent (a.moved d x ρ) x = t' at *
  generalize a.tangent d x = t at *
  have hsquare : 0 < t.reach * t.size := mul_pos ht.reach_pos (ht.reach_pos.trans_le ht.reach_le)
  have hsquare' : 0 < t'.reach * t'.size :=
    mul_pos ht'.reach_pos (ht'.reach_pos.trans_le ht'.reach_le)
  rcases le_total (t'.pull * t'.room) 0 with hneg | hpos
  · exact hneg.trans (by positivity)
  · refine le_of_mul_le_mul_right ?_ (by positivity : 0 < c * (t.reach * t.size))
    calc t'.pull * t'.room * (c * (t.reach * t.size))
        ≤ t'.pull * t'.room * ((1 + ρ / 2) ^ 3 * (t.reach * t.size)) := by gcongr
      _ ≤ t.pull * t.room * (t'.reach * t'.size) := by linarith
      _ ≤ c * m * (t.reach * t.size) * (t'.reach * t'.size) := by gcongr
      _ = m * (t'.reach * t'.size) * (c * (t.reach * t.size)) := by ring

/-- A value of nine tenths of the span makes a step long enough for three. -/
theorem three_le_cube (hlong : 9 / 10 * (a.tangent d x).span ≤ (a.tangent d x).value) :
    3 ≤ (1 + ρ / 2) ^ 3 := by
  have hstep : 891 / 1000 ≤ ρ := by
    refine le_of_mul_le_mul_right ?_ (h.span_pos hs)
    linarith [(hfollows.mul_span_le (h.ahead hs hfollows hvalue).nonneg).2]
  calc (3 : ℚ) ≤ (1 + 891 / 1000 / 2) ^ 3 := by norm_num
    _ ≤ (1 + ρ / 2) ^ 3 := by gcongr

end Ahead

end Step

end Basin

end AmpGamma

end ConcentratedPool
