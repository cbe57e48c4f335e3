import ConcentratedPool.Proofs.DecimalRounding
import ConcentratedPool.Proofs.PoolInvariant

/-!
# Where a repeg moves the price scale

A repeg aims at a mean of the price scale in force and the oracle, weighted by the step and by what
the step leaves of the deviation (`PriceState.meanScale`). That mean lies between the two. The scale
that is computed is the mean rounded down three times, the last time after a division by the
deviation, so it is below the mean by up to `PriceState.movedLoss`, which grows as the deviation
shrinks (`PriceState.movedScale_bounds`).

Rounding down is harmless on the upper side: no repeg moves the scale above the oracle, nor up where
the oracle is below. On the lower side it is harmless where the least step is large enough for the
scale in force (`PriceState.ScaleMove.loss_le`), and where a repeg downward stops far enough above
the oracle. `PoolState.scale_between_of_repeg` says both. With the least step that governance
allows, a repeg goes away from the oracle (`PoolState.scale_away_of_repeg_fine`).
-/

set_option autoImplicit false
set_option relaxedAutoImplicit false

namespace ConcentratedPool

namespace PriceState

variable {s t : PriceState} {params : PoolParams} {shape : AmpGamma} {now : ℤ}
variable {supply last deviation delta moved : Decimal} {xs : List Decimal}

/-! ### The parts of a repeg -/

/-- The mean of the price scale and the oracle that a repeg aims at. -/
def meanScale (scale oracle deviation delta : ℚ) : ℚ :=
  (scale * (deviation - delta) + oracle * delta) / deviation

/-- What rounding can take off a moved scale: two units of the eighteenth place divided by the
deviation, and one more. -/
def movedLoss (deviation : ℚ) : ℚ := Decimal.ulp * (1 + 2 / deviation)

/-- A moved scale is the mean, less what rounding takes off. -/
theorem movedScale_bounds (h : s.movedScale deviation delta = .ok moved) :
    moved.toRat ≤ meanScale s.scale.toRat s.oracle.toRat deviation.toRat delta.toRat ∧
      meanScale s.scale.toRat s.oracle.toRat deviation.toRat delta.toRat <
        moved.toRat + movedLoss deviation.toRat := by
  simp only [movedScale, bind_eq_ok] at h
  obtain ⟨rest, hrest, kept, hkept, pulled, hpulled, sum, hsum, hmoved⟩ := h
  obtain ⟨hkeptLe, hkeptLt⟩ := Decimal.toRat_mul_bounds hkept
  obtain ⟨hpulledLe, hpulledLt⟩ := Decimal.toRat_mul_bounds hpulled
  obtain ⟨hpos, hmovedLe, hmovedLt⟩ := Decimal.toRat_div_bounds hmoved
  rw [Decimal.toRat_sub hrest] at hkeptLe hkeptLt
  rw [Decimal.toRat_add hsum] at hmovedLe hmovedLt
  have hsplit : moved.toRat + movedLoss deviation.toRat =
      moved.toRat + Decimal.ulp + (Decimal.ulp + Decimal.ulp) / deviation.toRat := by
    unfold movedLoss
    ring
  unfold meanScale
  constructor
  · exact hmovedLe.trans (div_le_div_of_nonneg_right (add_le_add hkeptLe hpulledLe) hpos.le)
  · calc (s.scale.toRat * (deviation.toRat - delta.toRat) + s.oracle.toRat * delta.toRat) /
          deviation.toRat
        < (kept.toRat + pulled.toRat + (Decimal.ulp + Decimal.ulp)) / deviation.toRat :=
          div_lt_div_of_pos_right (by linarith) hpos
      _ = (kept.toRat + pulled.toRat) / deviation.toRat +
          (Decimal.ulp + Decimal.ulp) / deviation.toRat := add_div _ _ _
      _ < moved.toRat + movedLoss deviation.toRat := by
          rw [hsplit]
          exact add_lt_add_of_lt_of_le hmovedLt le_rfl

/-- The deviation is the distance of the oracle in units of the scale, rounded down. -/
theorem deviation_mul_le (h : s.deviation = .ok deviation) :
    0 < s.scale.toRat ∧ deviation.toRat * s.scale.toRat ≤ |s.oracle.toRat - s.scale.toRat| := by
  obtain ⟨hpos, hle, -⟩ := Decimal.toRat_div_bounds h
  rw [le_div_iff₀ hpos, Decimal.toRat_distance] at hle
  exact ⟨hpos, hle⟩

/-- The step of a repeg is the least one, or it is larger and at most a tenth of the deviation. -/
theorem of_scaleDelta (h : scaleDelta params deviation = .ok delta) :
    params.minScaleDelta.toRat ≤ delta.toRat ∧
      (delta = params.minScaleDelta ∨ 10 * delta.toRat ≤ deviation.toRat) := by
  simp only [scaleDelta, bind_eq_ok, pure_eq_ok] at h
  obtain ⟨tenth, htenth, rfl⟩ := h
  refine ⟨Decimal.toRat_le_toRat.mpr (Decimal.raw_le_max _ _), ?_⟩
  have hten : Decimal.ten.toRat = 10 := by norm_num [Decimal.toRat, Decimal.ten, Decimal.scale]
  obtain ⟨-, hle, -⟩ := Decimal.toRat_div_bounds htenth
  unfold Decimal.max
  split_ifs with hlt
  · right
    rw [hten] at hle
    linarith
  · exact .inl rfl

/-! ### A move of the scale -/

/-- What a repeg from the scale `old` to the scale `new` computes, in exact values: the deviation
`n` of the oracle in units of the old scale, rounded down, the step `d` out of it, which is the
least step `m` or at most a tenth of the deviation, and the mean of both prices, rounded down. -/
structure ScaleMove (old oracle new n d m : ℚ) : Prop where
  old_pos : 0 < old
  least_pos : 0 < m
  least_le_one : m ≤ 1
  least_le : m ≤ d
  step_le : d ≤ n
  step : d = m ∨ 10 * d ≤ n
  gap : n * old ≤ |oracle - old|
  new_le : new ≤ meanScale old oracle n d
  lt_new_add : meanScale old oracle n d < new + movedLoss n

namespace ScaleMove

variable {old oracle new n d m : ℚ}

theorem step_pos (h : ScaleMove old oracle new n d m) : 0 < d := h.least_pos.trans_le h.least_le

theorem deviation_pos (h : ScaleMove old oracle new n d m) : 0 < n := h.step_pos.trans_le h.step_le

/-- The mean on the way from the old scale to the oracle. -/
theorem mean_eq (h : ScaleMove old oracle new n d m) :
    meanScale old oracle n d = old + (oracle - old) * d / n := by
  have hn := h.deviation_pos.ne'
  unfold meanScale
  field_simp
  ring

/-- The mean on the way from the oracle back to the old scale. -/
theorem mean_eq_back (h : ScaleMove old oracle new n d m) :
    meanScale old oracle n d = oracle + (old - oracle) * (n - d) / n := by
  have hn := h.deviation_pos.ne'
  unfold meanScale
  field_simp
  ring

/-- A scale does not move to an oracle that it is at. -/
theorem oracle_ne (h : ScaleMove old oracle new n d m) : old ≠ oracle := by
  rintro rfl
  have hgap := h.gap
  rw [sub_self, abs_zero] at hgap
  exact absurd hgap (not_le.mpr (mul_pos h.deviation_pos h.old_pos))

/-- Rounding down never takes the scale above an oracle that was above. -/
theorem new_le_oracle (h : ScaleMove old oracle new n d m) (hup : old < oracle) :
    new ≤ oracle := by
  have hback : (old - oracle) * (n - d) / n ≤ 0 :=
    div_nonpos_of_nonpos_of_nonneg
      (mul_nonpos_of_nonpos_of_nonneg (sub_nonpos.mpr hup.le) (sub_nonneg.mpr h.step_le))
      h.deviation_pos.le
  have hnew := h.new_le
  rw [h.mean_eq_back] at hnew
  linarith

/-- Rounding down never keeps the scale from falling where the oracle was below. -/
theorem new_lt_old (h : ScaleMove old oracle new n d m) (hdown : oracle < old) : new < old := by
  have hpull : (oracle - old) * d / n < 0 :=
    div_neg_of_neg_of_pos (mul_neg_of_neg_of_pos (sub_neg.mpr hdown) h.step_pos) h.deviation_pos
  have hnew := h.new_le
  rw [h.mean_eq] at hnew
  linarith

/-- Where the least step is large enough for the old scale, rounding takes off no more than the
least step is worth. -/
theorem loss_le (h : ScaleMove old oracle new n d m) (hlarge : 3 * Decimal.ulp ≤ old * m ^ 2) :
    movedLoss n ≤ old * m := by
  have hm := h.least_pos
  have hpart : 1 + 2 / n ≤ 3 / m := by
    have hone : 1 ≤ 1 / m := (one_le_div hm).mpr h.least_le_one
    have htwo : 2 / n ≤ 2 / m :=
      div_le_div_of_nonneg_left zero_le_two hm (h.least_le.trans h.step_le)
    calc 1 + 2 / n ≤ 1 / m + 2 / m := add_le_add hone htwo
      _ = 3 / m := by ring
  calc movedLoss n ≤ Decimal.ulp * (3 / m) :=
        mul_le_mul_of_nonneg_left hpart Decimal.ulp_nonneg
    _ = 3 * Decimal.ulp / m := by ring
    _ ≤ old * m ^ 2 / m := div_le_div_of_nonneg_right hlarge hm.le
    _ = old * m := by field_simp

/-- The part `r` of the way to an oracle that is at least `n` scales away is at least `r` scales. -/
theorem le_way (h : ScaleMove old oracle new n d m) {r : ℚ} (hr : 0 ≤ r) :
    old * r ≤ |oracle - old| * r / n := by
  rw [le_div_iff₀ h.deviation_pos]
  calc old * r * n = n * old * r := by ring
    _ ≤ |oracle - old| * r := mul_le_mul_of_nonneg_right h.gap hr

/-- Where the least step is large enough, the scale moves toward an oracle that is above. -/
theorem old_lt_new (h : ScaleMove old oracle new n d m) (hlarge : 3 * Decimal.ulp ≤ old * m ^ 2)
    (hup : old < oracle) : old < new := by
  have hway := h.le_way h.step_pos.le
  rw [abs_of_pos (sub_pos.mpr hup)] at hway
  have hworth : old * m ≤ old * d := mul_le_mul_of_nonneg_left h.least_le h.old_pos.le
  have hloss := h.loss_le hlarge
  have hnew := h.lt_new_add
  rw [h.mean_eq] at hnew
  linarith

/-- Where the least step is large enough and the deviation is twice as large, the scale does not
move past an oracle that is below: what the step leaves of the deviation is at least another least
step. -/
theorem oracle_le_new (h : ScaleMove old oracle new n d m)
    (hlarge : 3 * Decimal.ulp ≤ old * m ^ 2) (hdown : oracle < old) (hfar : 2 * m ≤ n) :
    oracle ≤ new := by
  have hrest : m ≤ n - d := by
    rcases h.step with hleast | htenth
    · linarith
    · linarith [h.least_le, h.step_pos]
  have hway := h.le_way (h.least_pos.le.trans hrest)
  rw [abs_of_neg (sub_neg.mpr hdown), neg_sub] at hway
  have hworth : old * m ≤ old * (n - d) := mul_le_mul_of_nonneg_left hrest h.old_pos.le
  have hloss := h.loss_le hlarge
  have hnew := h.lt_new_add
  rw [h.mean_eq_back] at hnew
  linarith

end ScaleMove

/-- An update that moves the scale takes it to the moved one, for the oracle that it stores. -/
theorem exists_movedScale_of_update
    (h : s.update params shape now supply xs last = (t, .ok true)) :
    ∃ deviation delta, { s with oracle := t.oracle }.deviation = .ok deviation ∧
      scaleDelta params deviation = .ok delta ∧ delta ≤ deviation ∧
      { s with oracle := t.oracle }.movedScale deviation delta = .ok t.scale := by
  cases updateEnds_of_update h with
  | credited _ _ houtcome => exact absurd rfl houtcome
  | moved hobserve hcredit _ hrepeg =>
    obtain ⟨_, _, rfl⟩ := exists_eq_of_observe hobserve
    obtain ⟨_, _, _, rfl, _⟩ := exists_eq_of_credit hcredit
    obtain ⟨deviation, delta, _, _, _, rfl, hdeviation, hdelta, hle, hmoved, -⟩ :=
      exists_eq_of_repeg hrepeg
    exact ⟨deviation, delta, hdeviation, hdelta, hle, hmoved⟩

/-- With parameters in range, that is a move of the scale. -/
theorem scaleMove_of_movedScale (hparams : params.InRange)
    (hdeviation : s.deviation = .ok deviation)
    (hdelta : scaleDelta params deviation = .ok delta) (hle : delta ≤ deviation)
    (hmoved : s.movedScale deviation delta = .ok moved) :
    ScaleMove s.scale.toRat s.oracle.toRat moved.toRat deviation.toRat delta.toRat
      params.minScaleDelta.toRat := by
  obtain ⟨hscale, hgap⟩ := deviation_mul_le hdeviation
  obtain ⟨hleast, hstep⟩ := of_scaleDelta hdelta
  obtain ⟨hupper, hlower⟩ := movedScale_bounds hmoved
  have hpos : 0 < params.minScaleDelta.toRat := by
    have hmin : 0 < Limits.minScaleDelta.toRat := by
      norm_num [Decimal.toRat, Limits.minScaleDelta, Decimal.scale]
    exact hmin.trans_le (Decimal.toRat_le_toRat.mpr hparams.scaleDelta.1)
  have hone : params.minScaleDelta.toRat ≤ 1 := by
    have hmax : Limits.maxScaleDelta.toRat = 1 := by
      norm_num [Decimal.toRat, Limits.maxScaleDelta, Decimal.one, Decimal.scale]
    rw [← hmax]
    exact Decimal.toRat_le_toRat.mpr hparams.scaleDelta.2
  exact ⟨hscale, hpos, hone, hleast, Decimal.toRat_le_toRat.mpr hle,
    hstep.imp_left (congrArg Decimal.toRat), hgap, hupper, hlower⟩

end PriceState

namespace PoolState

open PriceState

/-- Where a repeg moves the scale. The new scale is the mean of the old one and the oracle, less
what rounding takes off. So it is not above an oracle that was above, and below the old scale where
the oracle was below. Where the least step is large enough for the old scale, it moves toward an
oracle above and not past it, and also toward an oracle below and not past it if the deviation is at
least twice the least step. -/
theorem scale_between_of_repeg {s t : PoolState} {params : PoolParams} {now : ℤ}
    {supply last : Decimal} {xs : List Decimal} (hparams : params.InRange)
    (h : s.updatePrice params now supply xs last = (t, .ok true)) :
    ∃ deviation delta, { s.price with oracle := t.price.oracle }.deviation = .ok deviation ∧
      scaleDelta params deviation = .ok delta ∧ delta ≤ deviation ∧
      (t.price.scale.toRat ≤ meanScale s.price.scale.toRat t.price.oracle.toRat deviation.toRat
          delta.toRat ∧
        meanScale s.price.scale.toRat t.price.oracle.toRat deviation.toRat delta.toRat <
          t.price.scale.toRat + movedLoss deviation.toRat) ∧
      (s.price.scale < t.price.oracle ∧ t.price.scale ≤ t.price.oracle ∨
        t.price.oracle < s.price.scale ∧ t.price.scale < s.price.scale) ∧
      (3 * Decimal.ulp ≤ s.price.scale.toRat * params.minScaleDelta.toRat ^ 2 →
        (s.price.scale < t.price.oracle →
          s.price.scale < t.price.scale ∧ t.price.scale ≤ t.price.oracle) ∧
        (t.price.oracle < s.price.scale → 2 * params.minScaleDelta.toRat ≤ deviation.toRat →
          t.price.oracle ≤ t.price.scale ∧ t.price.scale < s.price.scale)) := by
  obtain ⟨deviation, delta, hdeviation, hdelta, hle, hmoved⟩ :=
    exists_movedScale_of_update (update_of_updatePrice h)
  have hmove := scaleMove_of_movedScale hparams hdeviation hdelta hle hmoved
  simp only [← Decimal.toRat_lt_toRat, Decimal.le_def, ← Decimal.toRat_le_toRat]
  refine ⟨deviation, delta, hdeviation, hdelta, hmove.step_le, ⟨hmove.new_le, hmove.lt_new_add⟩, ?_,
    fun hlarge ↦ ⟨fun hup ↦ ?_, fun hdown hfar ↦ ?_⟩⟩
  · rcases lt_or_gt_of_ne hmove.oracle_ne with hup | hdown
    · exact .inl ⟨hup, hmove.new_le_oracle hup⟩
    · exact .inr ⟨hdown, hmove.new_lt_old hdown⟩
  · exact ⟨hmove.old_lt_new hlarge hup, hmove.new_le_oracle hup⟩
  · exact ⟨hmove.oracle_le_new hlarge hdown hfar, hmove.new_lt_old hdown⟩

/-- The curve of the usual pool with a share of one unit, at a price scale and an oracle. -/
def quoted (scale oracle : Decimal) : PoolState :=
  { Pool.usual.state with
    price := { PriceState.start scale 0 with oracle, profit := .one, virtualPrice := .one } }

/-- Eleven hundred units. -/
def elevenHundred : Decimal := ⟨1_100_000_000_000_000_000_000, by decide⟩

/-- A thousand units and shares. -/
def tenHundred : Decimal := ⟨1_000_000_000_000_000_000_000, by decide⟩

/-- With the usual parameters the scale moves from 1 toward an oracle at 1.02. -/
theorem scale_between_of_repeg_usual :
    Pool.usual.params.InRange ∧
      ∃ t, (quoted .one ⟨1_020_000_000_000_000_000, by decide⟩).updatePrice Pool.usual.params 0
          tenHundred [tenHundred, elevenHundred] .one = (t, .ok true) ∧
        Decimal.one < t.price.scale ∧ t.price.scale ≤ t.price.oracle := by
  have hrange : Pool.usual.params.InRange := (Pool.inRange_create Pool.create_usual).1.params
  obtain ⟨moved, houtcome, hmoved⟩ := exists_of_any
    ((quoted .one ⟨1_020_000_000_000_000_000, by decide⟩).updatePrice Pool.usual.params 0
      tenHundred [tenHundred, elevenHundred] .one).2 (fun moved ↦ moved) (by decide +kernel)
  obtain rfl : moved = true := hmoved
  obtain ⟨_, _, -, -, -, -, -, htoward⟩ := scale_between_of_repeg hrange (Prod.ext rfl houtcome)
  have hlarge : 3 * Decimal.ulp ≤
      Decimal.one.toRat * Pool.usual.params.minScaleDelta.toRat ^ 2 := by decide +kernel
  exact ⟨hrange, _, Prod.ext rfl houtcome, (htoward hlarge).1 (by decide +kernel)⟩

/-- The usual parameters with the least step that governance allows and no threshold. -/
def fineParams : PoolParams :=
  { Pool.usual.params with repegThreshold := .zero, minScaleDelta := Limits.minScaleDelta }

/-- The price scale at 1 + 5 · 10⁻¹², and the oracle above it at 1 + 20 · 10⁻¹². -/
def closeBelow : PoolState :=
  quoted ⟨1_000_000_000_005_000_000, by decide⟩ ⟨1_000_000_000_020_000_000, by decide⟩

/-- With the least step that governance allows, a repeg moves the scale down to 1, away from the
oracle. The two products are rounded down to eighteen places each, and the division by the
deviation, which is 15 · 10⁻¹², makes more of that than the step is worth. -/
theorem scale_away_of_repeg_fine :
    Pool.usual.params.update? ⟨none, none, none, some .zero, some Limits.minScaleDelta, none⟩ =
        .ok fineParams ∧
      0 < closeBelow.price.scale.raw ∧
      ∃ t, closeBelow.updatePrice fineParams 0 tenHundred [elevenHundred, tenHundred] .one =
          (t, .ok true) ∧
        t.price.scale = .one ∧
        ¬ (closeBelow.price.scale < t.price.scale ∧ t.price.scale ≤ t.price.oracle ∨
          t.price.oracle ≤ t.price.scale ∧ t.price.scale < closeBelow.price.scale) := by
  refine ⟨rfl, by decide, ?_⟩
  obtain ⟨moved, houtcome, hmoved⟩ := exists_of_any
    (closeBelow.updatePrice fineParams 0 tenHundred [elevenHundred, tenHundred] .one).2
    (fun moved ↦ moved) (by decide +kernel)
  obtain rfl : moved = true := hmoved
  exact ⟨_, Prod.ext rfl houtcome, by decide +kernel, by decide +kernel⟩

end PoolState

end ConcentratedPool
