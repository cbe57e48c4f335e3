import ConcentratedPool.Proofs.ExactCurve
import ConcentratedPool.Proofs.ParameterRanges

/-!
# The line of a promotion

While a promotion lasts, each curve parameter moves along a straight line and is rounded down to 18
places (`Promotion.line`, `Promotion.effective_le_line`). A promotion lasts a day at least and moves
a parameter by a tenth at most, up to the rounding of the quotient that is checked (`Decimal.Near`,
`Promotion.near_of_moderate`); `Promotion.Tempered` is that, and what is left of it when the promotion
has been stopped.

The two lines that a day can hold are bounded separately. `Promotion.Tempered.carried` is about the
tail of the older one: over a time `p`, with `v` seconds of the day left, it changes a parameter by
so little that a further change by the part `v` of a tenth stays within a tenth of where the day
began. `Promotion.Tempered.moved` is about the head of the newer one, which moves by that part at
most.
-/

set_option autoImplicit false
set_option relaxedAutoImplicit false

namespace ConcentratedPool

/-- One of the two curve parameters. -/
inductive CurveParameter where
  | amp
  | gamma
deriving DecidableEq

namespace CurveParameter

/-- The largest value of a curve parameter. -/
def largest : CurveParameter → Decimal
  | amp => Limits.maxAmplification
  | gamma => Limits.maxGamma

end CurveParameter

namespace AmpGamma

/-- The value of one curve parameter. -/
def value (a : AmpGamma) : CurveParameter → Decimal
  | .amp => a.amp
  | .gamma => a.gamma

/-- Curve parameters in range are not above their largest values. -/
theorem InRange.value_le {a : AmpGamma} (h : a.InRange) (k : CurveParameter) :
    a.value k ≤ k.largest := by
  cases k
  · exact h.amp_le_max
  · exact h.gamma_le_max

end AmpGamma

/-- The second of two values is within a tenth of the first. The upper bound is a tenth of a unit of
the eighteenth place wider, relatively, because the quotient that is checked was rounded down. -/
structure Decimal.Near (a b : Decimal) : Prop where
  le : 9 * a.raw ≤ 10 * b.raw
  ge : 10 * Decimal.scale * b.raw ≤ (11 * Decimal.scale + 10) * a.raw

/-- The length of a day in seconds, as a rational number. -/
def Limits.day : ℚ := Limits.minPromotionTime

theorem Limits.day_pos : 0 < Limits.day := by norm_num [Limits.day, Limits.minPromotionTime]

/-- How far a value near another one can be above it. -/
theorem Decimal.Near.sub_le {a b : Decimal} (h : a.Near b) :
    (b.raw - a.raw : ℚ) ≤ (1 / 10 + Decimal.ulp) * a.raw := by
  have hge : (10 * Decimal.scale * b.raw : ℚ) ≤ (11 * Decimal.scale + 10) * a.raw := by
    exact_mod_cast h.ge
  have hscale := Decimal.cast_scale_pos
  have hscaled : (b.raw : ℚ) ≤ (11 * Decimal.scale + 10) * a.raw / (10 * Decimal.scale) := by
    rw [le_div_iff₀ (by positivity)]
    linarith
  have hvalue : (11 * Decimal.scale + 10) * (a.raw : ℚ) / (10 * Decimal.scale) =
      (11 / 10 + Decimal.ulp) * a.raw := by
    unfold Decimal.ulp
    field_simp
  rw [hvalue] at hscaled
  linarith

/-- How far a value near another one can be below it. -/
theorem Decimal.Near.le_sub {a b : Decimal} (h : a.Near b) :
    -((a.raw : ℚ) / 10) ≤ b.raw - a.raw := by
  have hle : (9 * a.raw : ℚ) ≤ 10 * b.raw := by exact_mod_cast h.le
  linarith

/-! ### Two lines in one day -/

section Day

variable {a m length w s p v ε : ℚ}

/-- Some seconds of a day as a part of it. -/
theorem exists_part (hw : 0 < w) (hv : 0 ≤ v) (hvw : v ≤ w) :
    ∃ x, 0 ≤ x ∧ x ≤ 1 ∧ v = w * x ∧ w * x / (10 * w) = x / 10 :=
  ⟨v / w, by positivity, (div_le_one hw).mpr hvw, by field_simp, by field_simp⟩

/-- The upper half of the bound on the tail of a line: from `a + m s` the line goes on for `p`, and
`v` seconds of the day are left. A rising line that is `v` seconds old at least has already gained
as much as the newer line will gain on top of it. -/
theorem line_upper (ha : 0 ≤ a) (hw : 0 < w) (hlength : w ≤ length) (hε : 0 ≤ ε)
    (hslope : m * length ≤ (1 / 10 + ε) * a) (hp : 0 ≤ p) (hv : 0 ≤ v) (hday : p + v ≤ w)
    (hage : v ≤ s) (hvalue : 0 ≤ a + m * s) :
    (a + m * (s + p)) * (1 + v / (10 * w)) ≤ 11 / 10 * (a + m * s) + ε * a := by
  obtain ⟨x, hx, hxOne, rfl, hpart⟩ := exists_part hw hv (by linarith)
  rw [hpart]
  rcases le_total m 0 with hm | hm
  · have hfall : a + m * (s + p) ≤ a + m * s := by
      have := mul_nonpos_of_nonpos_of_nonneg hm hp
      linarith
    calc (a + m * (s + p)) * (1 + x / 10) ≤ (a + m * s) * (1 + x / 10) :=
          mul_le_mul_of_nonneg_right hfall (by positivity)
      _ ≤ (a + m * s) * (11 / 10) := mul_le_mul_of_nonneg_left (by linarith) hvalue
      _ ≤ 11 / 10 * (a + m * s) + ε * a := by
          have := mul_nonneg hε ha
          linarith
  · have hslopeDay : m * w ≤ (1 / 10 + ε) * a :=
      (mul_le_mul_of_nonneg_left hlength hm).trans hslope
    have hgain : m * p ≤ m * (w * (1 - x)) := mul_le_mul_of_nonneg_left (by linarith) hm
    have hold : m * (w * x) ≤ m * s := mul_le_mul_of_nonneg_left hage hm
    have hsteep : m * w + m * (w * x) / 10 ≤ (a + m * s) / 10 + ε * a := by linarith
    have htail : m * p * (1 + x / 10) ≤ (1 - x) * ((a + m * s) / 10) + ε * a :=
      calc m * p * (1 + x / 10) ≤ m * (w * (1 - x)) * (1 + x / 10) :=
            mul_le_mul_of_nonneg_right hgain (by positivity)
        _ = (1 - x) * (m * w + m * (w * x) / 10) := by ring
        _ ≤ (1 - x) * ((a + m * s) / 10 + ε * a) :=
            mul_le_mul_of_nonneg_left hsteep (by linarith)
        _ ≤ (1 - x) * ((a + m * s) / 10) + ε * a := by
            have := mul_nonneg hx (mul_nonneg hε ha)
            linarith
    linarith

/-- The lower half: a falling line loses a tenth of its start at most until its end, so what it can
still lose is bounded by the value that it has reached. -/
theorem line_lower (hw : 0 < w) (hlength : w ≤ length)
    (hslope : -(a / 10) ≤ m * length) (hp : 0 ≤ p) (hv : 0 ≤ v) (hday : p + v ≤ w)
    (hend : s + p ≤ length) (hvalue : 0 ≤ a + m * s) :
    9 / 10 * (a + m * s) ≤ (a + m * (s + p)) * (1 - v / (10 * w)) := by
  obtain ⟨x, hx, hxOne, rfl, hpart⟩ := exists_part hw hv (by linarith)
  rw [hpart]
  rcases le_total 0 m with hm | hm
  · have hrise : a + m * s ≤ a + m * (s + p) := by
      have := mul_nonneg hm hp
      linarith
    calc 9 / 10 * (a + m * s) ≤ (a + m * s) * (1 - x / 10) := by
          rw [mul_comm]
          exact mul_le_mul_of_nonneg_left (by linarith) hvalue
      _ ≤ (a + m * (s + p)) * (1 - x / 10) := mul_le_mul_of_nonneg_right hrise (by linarith)
  · -- `n` is the steepness of the fall.
    obtain ⟨n, rfl⟩ : ∃ n, m = -n := ⟨-m, by ring⟩
    have hn : 0 ≤ n := by linarith
    have hstart : 10 * (n * length) ≤ a := by linarith
    have hreached : n * (9 * w + p) ≤ a + -n * s := by
      have hlong : n * w ≤ n * length := mul_le_mul_of_nonneg_left hlength hn
      have hrest : n * (s + p) ≤ n * length := mul_le_mul_of_nonneg_left hend hn
      linarith
    have hloss : n * p * (10 - x) ≤ (a + -n * s) * (1 - x) :=
      calc n * p * (10 - x) = n * (9 * p + p * (1 - x)) := by ring
        _ ≤ n * (9 * (w * (1 - x)) + p * (1 - x)) :=
            mul_le_mul_of_nonneg_left (by linarith) hn
        _ = n * (9 * w + p) * (1 - x) := by ring
        _ ≤ (a + -n * s) * (1 - x) := mul_le_mul_of_nonneg_right hreached (by linarith)
    linarith

end Day

/-- A mean of two decimals is the exact mean rounded down. -/
theorem Decimal.mix_bounds (a b : Decimal) {m n : ℕ} (h : 0 < m + n) :
    ((a.mix b m n).raw : ℚ) ≤ (a.raw * m + b.raw * n) / (m + n) ∧
      (a.raw * m + b.raw * n : ℚ) / (m + n) < (a.mix b m n).raw + 1 := by
  have hpos : (0 : ℚ) < m + n := by exact_mod_cast h
  constructor
  · rw [le_div_iff₀ hpos]
    exact_mod_cast Nat.div_mul_le_self (a.raw * m + b.raw * n) (m + n)
  · rw [div_lt_iff₀ hpos]
    have hlt := Nat.lt_div_mul_add h (a := a.raw * m + b.raw * n)
    have hround : a.raw * m + b.raw * n < ((a.raw * m + b.raw * n) / (m + n) + 1) * (m + n) := by
      rw [Nat.add_mul, Nat.one_mul]
      exact hlt
    exact_mod_cast hround

/-- The mean of a decimal with itself. -/
theorem Decimal.mix_self (a : Decimal) {m n : ℕ} (h : 0 < m + n) : a.mix a m n = a := by
  refine Decimal.ext ?_
  show (a.raw * m + a.raw * n) / (m + n) = a.raw
  rw [← Nat.mul_add, Nat.mul_div_cancel _ h]

namespace Promotion

variable {p q : Promotion} {now t u : ℤ}

/-! ### The line -/

/-- How much of a promotion is over at a time that is not before its start. -/
def elapsed (p : Promotion) (t : ℤ) : ℤ := min (t - p.initialTime) (p.futureTime - p.initialTime)

/-- The value of a parameter after `s` seconds of a promotion, without rounding, in units of the
eighteenth place. -/
def line (p : Promotion) (k : CurveParameter) (s : ℚ) : ℚ :=
  (p.initial.value k).raw + (((p.future.value k).raw - (p.initial.value k).raw : ℚ) /
    (p.futureTime - p.initialTime : ℤ)) * s

/-- Parameters on their way are the mean of both ends, for each parameter alike. -/
theorem value_effective_of_mem (k : CurveParameter) (hbefore : p.initialTime < t)
    (hafter : t < p.futureTime) :
    (p.effective t).value k = (p.initial.value k).mix (p.future.value k)
      (p.futureTime - t).toNat (t - p.initialTime).toNat := by
  unfold effective
  rw [if_neg (not_le.mpr hafter), if_neg (not_le.mpr hbefore)]
  cases k <;> rfl

/-- The parameters in force are those of the line, rounded down. Assumes: a time that is not before
the start of a promotion of positive length. -/
theorem effective_le_line (k : CurveParameter) (hlength : p.initialTime < p.futureTime)
    (ht : p.initialTime ≤ t) :
    (((p.effective t).value k).raw : ℚ) ≤ p.line k (p.elapsed t) ∧
      p.line k (p.elapsed t) < ((p.effective t).value k).raw + 1 := by
  have hlen : (0 : ℚ) < (p.futureTime - p.initialTime : ℤ) := by exact_mod_cast sub_pos.mpr hlength
  unfold line elapsed
  rcases le_or_gt p.futureTime t with hafter | hafter
  · have hover : min (t - p.initialTime) (p.futureTime - p.initialTime) =
        p.futureTime - p.initialTime := min_eq_right (by omega)
    rw [hover, div_mul_cancel₀ _ hlen.ne', effective, if_pos hafter]
    constructor
    · linarith
    · linarith
  rcases eq_or_lt_of_le ht with rfl | hbefore
  · rw [sub_self, min_eq_left (by omega), effective, if_neg (not_le.mpr hafter), if_pos le_rfl]
    simp
  have hmid : min (t - p.initialTime) (p.futureTime - p.initialTime) = t - p.initialTime :=
    min_eq_left (by omega)
  have hweights : 0 < (p.futureTime - t).toNat + (t - p.initialTime).toNat := by omega
  have hm : (((p.futureTime - t).toNat : ℕ) : ℚ) = (p.futureTime - t : ℤ) := by
    exact_mod_cast Int.toNat_of_nonneg (by omega)
  have hn : (((t - p.initialTime).toNat : ℕ) : ℚ) = (t - p.initialTime : ℤ) := by
    exact_mod_cast Int.toNat_of_nonneg (by omega)
  have hmix := Decimal.mix_bounds (p.initial.value k) (p.future.value k) hweights
  have hline : ((p.initial.value k).raw : ℚ) + (((p.future.value k).raw -
      (p.initial.value k).raw : ℚ) / (p.futureTime - p.initialTime : ℤ)) * (t - p.initialTime : ℤ) =
      ((p.initial.value k).raw * (p.futureTime - t : ℤ) +
        (p.future.value k).raw * (t - p.initialTime : ℤ)) /
          ((p.futureTime - t : ℤ) + (t - p.initialTime : ℤ)) := by
    have hsum : ((p.futureTime - t : ℤ) + (t - p.initialTime : ℤ) : ℚ) =
        (p.futureTime - p.initialTime : ℤ) := by push_cast; ring
    rw [hsum, eq_div_iff hlen.ne', add_mul, mul_right_comm, div_mul_cancel₀ _ hlen.ne', ← hsum]
    ring
  rw [hmid, value_effective_of_mem k hbefore hafter, hline, ← hm, ← hn]
  exact hmix

/-! ### Promotions within the limits -/

/-- What the limits of governance leave of a promotion at a time: it has started, and it lasts a day
at least and moves each parameter by a tenth at most, unless it rests. -/
structure Tempered (p : Promotion) (now : ℤ) : Prop where
  started : p.initialTime ≤ now
  ordered : p.initialTime ≤ p.futureTime
  pace : p.initial = p.future ∨ p.initialTime + Limits.minPromotionTime ≤ p.futureTime ∧
    ∀ k, (p.initial.value k).Near (p.future.value k)

/-- A moderate change leads to a value within a tenth. -/
theorem near_of_moderate {current next : Decimal} (h : Moderate current next) :
    current.Near next := by
  obtain ⟨change, hchange, hle⟩ := h
  simp only [relativeChange, bind_eq_ok, pure_eq_ok, Decimal.div_eq_ok] at hchange
  obtain ⟨ratio, ⟨hpos, hratio⟩, rfl⟩ := hchange
  have hcurrent : 0 < current.raw := Nat.pos_of_ne_zero hpos
  have hbounds : 9 * Decimal.scale ≤ 10 * ratio.raw ∧ 10 * ratio.raw ≤ 11 * Decimal.scale := by
    rw [Decimal.le_def] at hle
    simp only [Decimal.distance, Decimal.one, Limits.maxPromotionChange] at hle
    unfold Decimal.scale
    omega
  have hfloor : ratio.raw * current.raw ≤ next.raw * Decimal.scale :=
    hratio ▸ Nat.div_mul_le_self _ _
  have hnext : next.raw * Decimal.scale < (ratio.raw + 1) * current.raw := by
    rw [hratio, Nat.add_mul, Nat.one_mul]
    exact Nat.lt_div_mul_add hcurrent
  constructor
  · refine Nat.le_of_mul_le_mul_right ?_ Decimal.scale_pos
    calc 9 * current.raw * Decimal.scale = 9 * Decimal.scale * current.raw := by ring
      _ ≤ 10 * ratio.raw * current.raw := Nat.mul_le_mul_right _ hbounds.1
      _ = 10 * (ratio.raw * current.raw) := by ring
      _ ≤ 10 * (next.raw * Decimal.scale) := Nat.mul_le_mul_left _ hfloor
      _ = 10 * next.raw * Decimal.scale := by ring
  · calc 10 * Decimal.scale * next.raw = 10 * (next.raw * Decimal.scale) := by ring
      _ ≤ 10 * ((ratio.raw + 1) * current.raw) := Nat.mul_le_mul_left _ hnext.le
      _ = (10 * ratio.raw + 10) * current.raw := by ring
      _ ≤ (11 * Decimal.scale + 10) * current.raw :=
          Nat.mul_le_mul_right _ (Nat.add_le_add_right hbounds.2 10)

/-- A promotion that is started does so at rest, a day after the last start at the earliest. It goes
from the parameters in force, takes a day at least and moves each parameter by a tenth at most. -/
theorem of_start {amp gamma : Decimal} {futureTime : ℤ}
    (h : p.start? now amp gamma futureTime = .ok q) :
    p.futureTime ≤ now ∧ p.initialTime + Limits.minPromotionTime ≤ now ∧
      q.initial = p.effective now ∧ q.initialTime = now ∧
      now + Limits.minPromotionTime ≤ q.futureTime ∧
      ∀ k, (q.initial.value k).Near (q.future.value k) := by
  obtain ⟨hrest, hgap, hwindow, -, hamp, hgamma, rfl⟩ := start_eq_ok.mp h
  refine ⟨hrest, hgap, rfl, rfl, hwindow, fun k ↦ ?_⟩
  cases k
  · exact near_of_moderate hamp
  · exact near_of_moderate hgamma

/-! ### What a day can change -/

/-- The slope of a promotion times its length is the change of the parameter. -/
theorem slope_mul_length (k : CurveParameter) (hlength : p.initialTime < p.futureTime) :
    ((p.future.value k).raw - (p.initial.value k).raw : ℚ) / (p.futureTime - p.initialTime : ℤ) *
      (p.futureTime - p.initialTime : ℤ) = (p.future.value k).raw - (p.initial.value k).raw := by
  have hlen : (0 : ℚ) < (p.futureTime - p.initialTime : ℤ) := by exact_mod_cast sub_pos.mpr hlength
  exact div_mul_cancel₀ _ hlen.ne'

/-- A promotion at rest is at its initial parameters. -/
theorem value_effective_of_rest (k : CurveParameter) (hrest : p.initial = p.future) (t : ℤ) :
    (p.effective t).value k = p.initial.value k := by
  rcases le_or_gt p.futureTime t with hafter | hafter
  · rw [effective, if_pos hafter, hrest]
  rcases le_or_gt t p.initialTime with hbefore | hbefore
  · rw [effective, if_neg (not_le.mpr hafter), if_pos hbefore]
  · rw [value_effective_of_mem k hbefore hafter, ← hrest]
    exact Decimal.mix_self _ (by omega)

/-- The tail of a promotion. From `t` to `u` the parameter changes by so little that a further
change by the part `v` of a tenth, for the rest of the day, stays within a tenth of the value at
`t`. Assumes: the promotion is `v` seconds old at `t` at least. -/
theorem Tempered.carried (hp : p.Tempered t) (k : CurveParameter) {v : ℚ} (htu : t ≤ u)
    (hv : 0 ≤ v) (hday : (u - t : ℤ) + v ≤ Limits.day) (hage : v ≤ (t - p.initialTime : ℤ)) :
    ((p.effective u).value k).raw * (1 + v / (10 * Limits.day)) ≤
        11 / 10 * (((p.effective t).value k).raw + 1) + Decimal.ulp * (p.initial.value k).raw ∧
      9 / 10 * (((p.effective t).value k).raw : ℚ) ≤
        (((p.effective u).value k).raw + 1) * (1 - v / (10 * Limits.day)) := by
  have hspan : (0 : ℚ) ≤ (u - t : ℤ) := by exact_mod_cast sub_nonneg.mpr htu
  have hdayPos := Limits.day_pos
  have hpart : v / (10 * Limits.day) ≤ 1 / 10 := by
    rw [div_le_iff₀ (by positivity)]
    linarith
  have hpartNonneg : 0 ≤ v / (10 * Limits.day) := by positivity
  have hulp := Decimal.ulp_nonneg
  rcases hp.pace with hrest | ⟨hlong, hnear⟩
  · rw [value_effective_of_rest k hrest, value_effective_of_rest k hrest]
    have hvalue : (0 : ℚ) ≤ (p.initial.value k).raw := Nat.cast_nonneg _
    constructor
    · have := mul_le_mul_of_nonneg_left hpart hvalue
      have := mul_nonneg hulp hvalue
      linarith
    · have := mul_le_mul_of_nonneg_left hpart (by linarith : (0 : ℚ) ≤ (p.initial.value k).raw + 1)
      linarith
  have hlength : p.initialTime < p.futureTime := by
    unfold Limits.minPromotionTime at hlong
    omega
  have hlengthDay : Limits.day ≤ (p.futureTime - p.initialTime : ℤ) := by
    unfold Limits.day
    exact_mod_cast (by omega : Limits.minPromotionTime ≤ p.futureTime - p.initialTime)
  obtain ⟨hnow, hnowLt⟩ := effective_le_line k hlength hp.started
  obtain ⟨hlater, hlaterLt⟩ := effective_le_line (t := u) k hlength (hp.started.trans htu)
  have hslope := slope_mul_length (p := p) k hlength
  have helapsed : (p.elapsed u : ℚ) = p.elapsed t + (p.elapsed u - p.elapsed t : ℤ) := by
    push_cast
    ring
  have hpassed : (0 : ℚ) ≤ (p.elapsed u - p.elapsed t : ℤ) := by
    unfold elapsed
    exact_mod_cast (by omega)
  have hpassedDay : ((p.elapsed u - p.elapsed t : ℤ) : ℚ) + v ≤ Limits.day := by
    have hle : ((p.elapsed u - p.elapsed t : ℤ) : ℚ) ≤ (u - t : ℤ) := by
      unfold elapsed
      exact_mod_cast (by omega)
    linarith
  have hold : v ≤ p.elapsed t := by
    unfold elapsed
    rw [Int.cast_min]
    exact le_min hage (by linarith)
  have hend : (p.elapsed t : ℚ) + (p.elapsed u - p.elapsed t : ℤ) ≤
      (p.futureTime - p.initialTime : ℤ) := by
    rw [← helapsed]
    unfold elapsed
    exact_mod_cast min_le_right _ _
  have hvalue : 0 ≤ p.line k (p.elapsed t) := le_trans (Nat.cast_nonneg _) hnow
  rw [helapsed] at hlater hlaterLt
  unfold line at hnow hnowLt hlater hlaterLt hvalue
  constructor
  · have hupper := line_upper (Nat.cast_nonneg _) hdayPos hlengthDay hulp
      (hslope.trans_le (hnear k).sub_le) hpassed hv hpassedDay hold hvalue
    have hround := mul_le_mul_of_nonneg_right hlater
      (by linarith : 0 ≤ 1 + v / (10 * Limits.day))
    linarith
  · have hlower := line_lower hdayPos hlengthDay ((hnear k).le_sub.trans_eq hslope.symm) hpassed hv
      hpassedDay hend hvalue
    have hround := mul_le_mul_of_nonneg_right hlaterLt.le
      (by linarith : 0 ≤ 1 - v / (10 * Limits.day))
    linarith

/-- The head of a promotion. Up to `t` the parameter has moved by the part of a tenth that the time
since the start is of a day. -/
theorem moved (k : CurveParameter) (hlong : p.initialTime + Limits.minPromotionTime ≤ p.futureTime)
    (hnear : (p.initial.value k).Near (p.future.value k)) (ht : p.initialTime ≤ t) :
    (((p.effective t).value k).raw : ℚ) ≤
        (p.initial.value k).raw * (1 + (t - p.initialTime : ℤ) / (10 * Limits.day)) +
          Decimal.ulp * (p.initial.value k).raw ∧
      (p.initial.value k).raw * (1 - (t - p.initialTime : ℤ) / (10 * Limits.day)) ≤
        (((p.effective t).value k).raw : ℚ) + 1 := by
  have hdayPos := Limits.day_pos
  have hulp := Decimal.ulp_nonneg
  have hlength : p.initialTime < p.futureTime := by
    unfold Limits.minPromotionTime at hlong
    omega
  have hlen : (0 : ℚ) < (p.futureTime - p.initialTime : ℤ) := by exact_mod_cast sub_pos.mpr hlength
  have hlengthDay : Limits.day ≤ (p.futureTime - p.initialTime : ℤ) := by
    unfold Limits.day
    exact_mod_cast (by omega : Limits.minPromotionTime ≤ p.futureTime - p.initialTime)
  obtain ⟨hnow, hnowLt⟩ := effective_le_line k hlength ht
  have hvalue : (0 : ℚ) ≤ (p.initial.value k).raw := Nat.cast_nonneg _
  -- `y` is the part of the promotion that is over.
  obtain ⟨y, hy⟩ : ∃ y : ℚ, (p.elapsed t : ℚ) = (p.futureTime - p.initialTime : ℤ) * y :=
    ⟨p.elapsed t / (p.futureTime - p.initialTime : ℤ), (mul_div_cancel₀ _ hlen.ne').symm⟩
  have hyNonneg : 0 ≤ y := by
    refine nonneg_of_mul_nonneg_right (hy ▸ ?_) hlen
    unfold elapsed
    exact_mod_cast (by omega)
  have hyOne : y ≤ 1 := by
    refine le_of_mul_le_mul_left ?_ hlen
    rw [← hy, mul_one]
    unfold elapsed
    exact_mod_cast min_le_right _ _
  have hyDay : y ≤ (t - p.initialTime : ℤ) / Limits.day := by
    rw [le_div_iff₀ hdayPos]
    calc y * Limits.day ≤ y * (p.futureTime - p.initialTime : ℤ) :=
          mul_le_mul_of_nonneg_left hlengthDay hyNonneg
      _ = p.elapsed t := by rw [hy, mul_comm]
      _ ≤ (t - p.initialTime : ℤ) := by
          unfold elapsed
          exact_mod_cast min_le_left _ _
  have hpart : ((t - p.initialTime : ℤ) : ℚ) / (10 * Limits.day) =
      (t - p.initialTime : ℤ) / Limits.day / 10 := by
    rw [mul_comm, div_div]
  have hline : p.line k (p.elapsed t) = (p.initial.value k).raw +
      ((p.future.value k).raw - (p.initial.value k).raw : ℚ) * y := by
    unfold line
    rw [hy, ← mul_assoc, slope_mul_length k hlength]
  have hdayPart := mul_le_mul_of_nonneg_left hyDay hvalue
  rw [hpart]
  rw [hline] at hnow hnowLt
  constructor
  · have hgain := mul_le_mul_of_nonneg_right hnear.sub_le hyNonneg
    have hrounding := mul_le_mul_of_nonneg_left hyOne (mul_nonneg hulp hvalue)
    linarith
  · have hloss := mul_le_mul_of_nonneg_right hnear.le_sub hyNonneg
    linarith

end Promotion

end ConcentratedPool
