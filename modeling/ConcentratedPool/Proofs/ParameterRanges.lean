import ConcentratedPool.Pool.Basic
import ConcentratedPool.Proofs.CheckedArithmetic
import ConcentratedPool.Proofs.ExactCurve
import Mathlib.Algebra.Order.Group.Nat

/-!
# Parameters stay in their ranges

`AmpGamma.InRange` and `PoolParams.InRange` are the ranges that governance has to keep to. A pool
starts in them, and each thing that governance can do keeps them: an update checks every field that
it sets (`PoolParams.inRange_update`), a promotion checks its target and starts at the parameters in
force (`Promotion.inRange_start`), and the parameters in force, being a rounded mean of two values
in range, are in range at every time (`Promotion.inRange_effective`). When each call is accepted,
and with which result, is said exactly (`PoolParams.update_eq_ok`, `Promotion.start_eq_ok`,
`Promotion.stop_eq_ok`).
-/

set_option autoImplicit false
set_option relaxedAutoImplicit false

namespace ConcentratedPool

/-- A range check is passed exactly by the values of the range. -/
theorem checkRange_eq_ok {name : String} {value low high : Decimal} {u : Unit} :
    checkRange name value low high = .ok u ↔ low ≤ value ∧ value ≤ high := by
  unfold checkRange
  split_ifs with hrange
  · simp [hrange]
  · simp [hrange]

/-- As `checkRange_eq_ok`, for whole numbers. -/
theorem checkIntRange_eq_ok {name : String} {value low high : ℤ} {u : Unit} :
    checkIntRange name value low high = .ok u ↔ low ≤ value ∧ value ≤ high := by
  unfold checkIntRange
  split_ifs with hrange
  · simp [hrange]
  · simp [hrange]

/-! ### Curve parameters -/

/-- Curve parameters in the ranges that governance has to keep to. -/
structure AmpGamma.InRange (a : AmpGamma) : Prop where
  min_le_amp : Limits.minAmplification ≤ a.amp
  amp_le_max : a.amp ≤ Limits.maxAmplification
  min_le_gamma : Limits.minGamma ≤ a.gamma
  gamma_le_max : a.gamma ≤ Limits.maxGamma

/-- The exact amplification and concentration in the ranges that governance has to keep to. -/
theorem AmpGamma.InRange.toRat_bounds {a : AmpGamma} (h : a.InRange) :
    (2 / 5 ≤ a.amp.toRat ∧ a.amp.toRat ≤ 400000) ∧
      1 / 10 ^ 7 ≤ a.gamma.toRat ∧ a.gamma.toRat ≤ 1 / 50 := by
  have hminAmp : Limits.minAmplification.toRat = 2 / 5 := by
    norm_num [Decimal.toRat, Limits.minAmplification, Decimal.scale]
  have hmaxAmp : Limits.maxAmplification.toRat = 400000 := by
    norm_num [Decimal.toRat, Limits.maxAmplification, Decimal.scale]
  have hminGamma : Limits.minGamma.toRat = 1 / 10 ^ 7 := by
    norm_num [Decimal.toRat, Limits.minGamma, Decimal.scale]
  have hmaxGamma : Limits.maxGamma.toRat = 1 / 50 := by
    norm_num [Decimal.toRat, Limits.maxGamma, Decimal.scale]
  rw [← hminAmp, ← hmaxAmp, ← hminGamma, ← hmaxGamma]
  exact ⟨⟨Decimal.toRat_le_toRat.mpr h.min_le_amp, Decimal.toRat_le_toRat.mpr h.amp_le_max⟩,
    Decimal.toRat_le_toRat.mpr h.min_le_gamma, Decimal.toRat_le_toRat.mpr h.gamma_le_max⟩

/-- Curve parameters are accepted exactly if they are in range, and then they are the given ones. -/
theorem AmpGamma.new_eq_ok {amp gamma : Decimal} {a : AmpGamma} :
    AmpGamma.new amp gamma = .ok a ↔ a = ⟨amp, gamma⟩ ∧ a.InRange := by
  simp only [new, bind_eq_ok, pure_eq_ok, checkRange_eq_ok]
  constructor
  · rintro ⟨_, hamp, _, hgamma, rfl⟩
    exact ⟨rfl, hamp.1, hamp.2, hgamma.1, hgamma.2⟩
  · rintro ⟨rfl, hrange⟩
    exact ⟨(), ⟨hrange.min_le_amp, hrange.amp_le_max⟩, (),
      ⟨hrange.min_le_gamma, hrange.gamma_le_max⟩, rfl⟩

/-- A rounded mean of two decimals, not both with weight zero, is not below a bound of both. -/
theorem Decimal.le_mix {low a b : Decimal} {m n : ℕ} (ha : low ≤ a) (hb : low ≤ b)
    (hpos : 0 < m + n) : low ≤ a.mix b m n := by
  have hleft : low.raw * m ≤ a.raw * m := Nat.mul_le_mul_right m ha
  have hright : low.raw * n ≤ b.raw * n := Nat.mul_le_mul_right n hb
  rw [Decimal.le_def, mix, Nat.le_div_iff_mul_le hpos, Nat.mul_add]
  exact Nat.add_le_add hleft hright

/-- A rounded mean of two decimals is not above a bound of both. -/
theorem Decimal.mix_le {high a b : Decimal} {m n : ℕ} (ha : a ≤ high) (hb : b ≤ high) :
    a.mix b m n ≤ high := by
  have hleft : a.raw * m ≤ high.raw * m := Nat.mul_le_mul_right m ha
  have hright : b.raw * n ≤ high.raw * n := Nat.mul_le_mul_right n hb
  rw [Decimal.le_def, mix]
  refine Nat.div_le_of_le_mul ?_
  rw [Nat.mul_comm (m + n), Nat.mul_add]
  exact Nat.add_le_add hleft hright

namespace Promotion

/-- A promotion between curve parameters in range. -/
structure InRange (p : Promotion) : Prop where
  initial : p.initial.InRange
  future : p.future.InRange

variable {p q : Promotion} {now : ℤ}

/-- The curve parameters in force are in range at every time. -/
theorem inRange_effective (hp : p.InRange) (now : ℤ) : (p.effective now).InRange := by
  unfold effective
  split_ifs with hafter hbefore
  · exact hp.future
  · exact hp.initial
  · have hpos : 0 < (p.futureTime - now).toNat + (now - p.initialTime).toNat := by omega
    exact {
      min_le_amp := Decimal.le_mix hp.initial.min_le_amp hp.future.min_le_amp hpos
      amp_le_max := Decimal.mix_le hp.initial.amp_le_max hp.future.amp_le_max
      min_le_gamma := Decimal.le_mix hp.initial.min_le_gamma hp.future.min_le_gamma hpos
      gamma_le_max := Decimal.mix_le hp.initial.gamma_le_max hp.future.gamma_le_max }

/-- A value that a parameter may be promoted to: there is a relative change, and it is within its
limit. -/
def Moderate (current next : Decimal) : Prop :=
  ∃ change, relativeChange current next = .ok change ∧ change ≤ Limits.maxPromotionChange

/-- A promotion is started exactly if the last one is over, it keeps to the limits of time, and both
targets are in range and moderate. It goes from the parameters in force to the targets. -/
theorem start_eq_ok {amp gamma : Decimal} {futureTime : ℤ} :
    p.start? now amp gamma futureTime = .ok q ↔
      p.futureTime ≤ now ∧ p.initialTime + Limits.minPromotionTime ≤ now ∧
      now + Limits.minPromotionTime ≤ futureTime ∧ (⟨amp, gamma⟩ : AmpGamma).InRange ∧
      Moderate (p.effective now).amp amp ∧ Moderate (p.effective now).gamma gamma ∧
      q = ⟨p.effective now, ⟨amp, gamma⟩, now, futureTime⟩ := by
  simp only [start?, refuse_eq_ok, bind_eq_ok, pure_eq_ok, isActive, decide_eq_true_eq, not_lt]
  constructor
  · rintro ⟨hrest, hgap, hwindow, next, hnext, ampChange, hamp, hampLe, gammaChange, hgamma,
      hgammaLe, rfl⟩
    obtain ⟨rfl, hrange⟩ := AmpGamma.new_eq_ok.mp hnext
    exact ⟨hrest, hgap, hwindow, hrange, ⟨ampChange, hamp, Nat.le_of_not_lt hampLe⟩,
      ⟨gammaChange, hgamma, Nat.le_of_not_lt hgammaLe⟩, rfl⟩
  · rintro ⟨hrest, hgap, hwindow, hrange, ⟨ampChange, hamp, hampLe⟩,
      ⟨gammaChange, hgamma, hgammaLe⟩, rfl⟩
    exact ⟨hrest, hgap, hwindow, _, AmpGamma.new_eq_ok.mpr ⟨rfl, hrange⟩, ampChange, hamp,
      Nat.not_lt_of_le hampLe, gammaChange, hgamma, Nat.not_lt_of_le hgammaLe, rfl⟩

/-- A promotion that is started goes from the parameters in force to checked ones. -/
theorem inRange_start {amp gamma : Decimal} {futureTime : ℤ} (hp : p.InRange)
    (h : p.start? now amp gamma futureTime = .ok q) : q.InRange := by
  obtain ⟨-, -, -, hrange, -, -, rfl⟩ := start_eq_ok.mp h
  exact ⟨inRange_effective hp now, hrange⟩

/-- A promotion is stopped exactly if it is on its way. It rests at the parameters in force, and
remembers its start. -/
theorem stop_eq_ok : p.stop? now = .ok q ↔
    now < p.futureTime ∧ q = ⟨p.effective now, p.effective now, p.initialTime, now⟩ := by
  simp only [stop?, refuse_eq_ok, pure_eq_ok, isActive, Bool.not_eq_true', decide_eq_false_iff_not,
    not_not]
  exact and_congr_right' eq_comm

/-- A promotion that is stopped rests at the parameters in force. -/
theorem inRange_stop (hp : p.InRange) (h : p.stop? now = .ok q) : q.InRange := by
  obtain ⟨-, rfl⟩ := stop_eq_ok.mp h
  exact ⟨inRange_effective hp now, inRange_effective hp now⟩

end Promotion

/-! ### Fee and repeg parameters -/

namespace PoolParams

/-- Fee and repeg parameters in the ranges that governance has to keep to. -/
structure InRange (p : PoolParams) : Prop where
  min_le_mid : Limits.minFee ≤ p.fees.mid
  mid_le_out : p.fees.mid ≤ p.fees.out
  out_le_max : p.fees.out ≤ Limits.maxFee
  feeGamma : Limits.minFeeGamma ≤ p.fees.gamma ∧ p.fees.gamma ≤ Limits.maxFeeGamma
  repegThreshold :
    Limits.minRepegThreshold ≤ p.repegThreshold ∧ p.repegThreshold ≤ Limits.maxRepegThreshold
  scaleDelta : Limits.minScaleDelta ≤ p.minScaleDelta ∧ p.minScaleDelta ≤ Limits.maxScaleDelta
  halfTime : Limits.minHalfTime ≤ p.halfTime ∧ p.halfTime ≤ Limits.maxHalfTime

variable {p q : PoolParams} {u : ParamUpdate}

/-- A check of a field that may be given is passed exactly if every given value is in the range. -/
theorem checkGiven_eq_ok {name : String} {value : Option Decimal} {low high : Decimal} {u : Unit} :
    checkGiven name value low high = .ok u ↔ ∀ v ∈ value, low ≤ v ∧ v ≤ high := by
  unfold checkGiven
  cases value with
  | none => simp
  | some v => simp [checkRange_eq_ok]

/-- The ranges that an update checks: those of the fields given, and the order of the merged fees.
-/
structure Checked (p : PoolParams) (u : ParamUpdate) : Prop where
  midFee : ∀ v ∈ u.midFee, Limits.minFee ≤ v ∧ v ≤ Limits.maxFee
  outFee : ∀ v ∈ u.outFee, Limits.minFee ≤ v ∧ v ≤ Limits.maxFee
  mid_le_out : (p.merge u).fees.mid ≤ (p.merge u).fees.out
  feeGamma : ∀ v ∈ u.feeGamma, Limits.minFeeGamma ≤ v ∧ v ≤ Limits.maxFeeGamma
  repegThreshold :
    ∀ v ∈ u.repegThreshold, Limits.minRepegThreshold ≤ v ∧ v ≤ Limits.maxRepegThreshold
  scaleDelta : ∀ v ∈ u.minScaleDelta, Limits.minScaleDelta ≤ v ∧ v ≤ Limits.maxScaleDelta
  halfTime : ∀ t ∈ u.halfTime, Limits.minHalfTime ≤ t ∧ t ≤ Limits.maxHalfTime

/-- An update is accepted exactly if it passes its checks, and then it sets the given fields. -/
theorem update_eq_ok : p.update? u = .ok q ↔ p.Checked u ∧ q = p.merge u := by
  simp only [update?, refuse_eq_ok, bind_eq_ok, checkGiven_eq_ok]
  constructor
  · rintro ⟨_, hmid, _, hout, horder, _, hgamma, _, hrepeg, _, hdelta, h⟩
    have horder : (p.merge u).fees.mid ≤ (p.merge u).fees.out := Nat.le_of_not_lt horder
    split at h
    · next hnone =>
      refine ⟨⟨hmid, hout, horder, hgamma, hrepeg, hdelta, ?_⟩, (pure_eq_ok.mp h).symm⟩
      simp [hnone]
    · next t hsome =>
      obtain ⟨_, htime, hmerge⟩ := bind_eq_ok.mp h
      refine ⟨⟨hmid, hout, horder, hgamma, hrepeg, hdelta, ?_⟩, (pure_eq_ok.mp hmerge).symm⟩
      simpa [hsome] using checkIntRange_eq_ok.mp htime
  · rintro ⟨hchecked, rfl⟩
    refine ⟨(), hchecked.midFee, (), hchecked.outFee, Nat.not_lt_of_le hchecked.mid_le_out, (),
      hchecked.feeGamma, (), hchecked.repegThreshold, (), hchecked.scaleDelta, ?_⟩
    split
    · exact pure_eq_ok.mpr rfl
    · next t hsome =>
      exact bind_eq_ok.mpr
        ⟨(), checkIntRange_eq_ok.mpr (hchecked.halfTime t hsome), pure_eq_ok.mpr rfl⟩

/-- A field that is replaced where a new value is given has a property as soon as both the old value
and the new one have it. -/
theorem getD_of_given {α : Type} {property : α → Prop} {given : Option α} {old : α}
    (hgiven : ∀ v ∈ given, property v) (hold : property old) : property (given.getD old) := by
  cases given with
  | none => exact hold
  | some v => exact hgiven v rfl

/-- An update keeps the parameters in range. -/
theorem inRange_update (hp : p.InRange) (h : p.update? u = .ok q) : q.InRange := by
  obtain ⟨hchecked, rfl⟩ := update_eq_ok.mp h
  exact {
    min_le_mid := getD_of_given (fun v hv ↦ (hchecked.midFee v hv).1) hp.min_le_mid
    mid_le_out := hchecked.mid_le_out
    out_le_max := getD_of_given (fun v hv ↦ (hchecked.outFee v hv).2) hp.out_le_max
    feeGamma := getD_of_given hchecked.feeGamma hp.feeGamma
    repegThreshold := getD_of_given hchecked.repegThreshold hp.repegThreshold
    scaleDelta := getD_of_given hchecked.scaleDelta hp.scaleDelta
    halfTime := getD_of_given hchecked.halfTime hp.halfTime }

/-- The parameters of a new pool are in range, all of them being set by an update. -/
theorem inRange_of_toUpdate {initial : InitialParams} (h : p.update? initial.toUpdate = .ok q) :
    q.InRange := by
  obtain ⟨hchecked, rfl⟩ := update_eq_ok.mp h
  exact {
    min_le_mid := (hchecked.midFee _ rfl).1
    mid_le_out := hchecked.mid_le_out
    out_le_max := (hchecked.outFee _ rfl).2
    feeGamma := hchecked.feeGamma _ rfl
    repegThreshold := hchecked.repegThreshold _ rfl
    scaleDelta := hchecked.scaleDelta _ rfl
    halfTime := hchecked.halfTime _ rfl }

end PoolParams

end ConcentratedPool
