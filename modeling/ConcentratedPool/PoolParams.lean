import ConcentratedPool.AmpGamma
import ConcentratedPool.Fee

/-!
# Parameters that governance sets

`PoolParams` holds the fees of a pool and the rules of its repegging. `PoolParams.update?` applies a
partial update: every field given is checked against its range, and the fees against each other,
before anything changes.
-/

set_option autoImplicit false
set_option relaxedAutoImplicit false

namespace ConcentratedPool

/-- The fee and repeg parameters of a pool. -/
structure PoolParams where
  fees : FeeSchedule
  /-- The growth of profit that a repeg must leave intact. -/
  repegThreshold : Decimal
  /-- The smallest relative step of the price scale. -/
  minScaleDelta : Decimal
  /-- The half-life of the price oracle in seconds; zero makes it follow at once. -/
  halfTime : Int
deriving DecidableEq

/-- New values for some of the parameters. -/
structure ParamUpdate where
  midFee : Option Decimal
  outFee : Option Decimal
  feeGamma : Option Decimal
  repegThreshold : Option Decimal
  minScaleDelta : Option Decimal
  halfTime : Option Int
deriving DecidableEq

namespace PoolParams

/-- The parameters of a pool that none have been set for. -/
def unset : PoolParams := ⟨⟨.zero, .zero, .zero⟩, .zero, .zero, 0⟩

/-- The parameters with the given fields replaced. -/
def merge (p : PoolParams) (u : ParamUpdate) : PoolParams where
  fees := ⟨u.midFee.getD p.fees.mid, u.outFee.getD p.fees.out, u.feeGamma.getD p.fees.gamma⟩
  repegThreshold := u.repegThreshold.getD p.repegThreshold
  minScaleDelta := u.minScaleDelta.getD p.minScaleDelta
  halfTime := u.halfTime.getD p.halfTime

/-- Checks a field if it is given. -/
def checkGiven (name : String) (value : Option Decimal) (low high : Decimal) :
    Except Fault Unit :=
  match value with
  | none => .ok ()
  | some v => checkRange name v low high

/-- Applies a partial update, or refuses all of it. -/
def update? (p : PoolParams) (u : ParamUpdate) : Except Fault PoolParams := do
  let merged := p.merge u
  checkGiven "mid_fee" u.midFee Limits.minFee Limits.maxFee
  checkGiven "out_fee" u.outFee Limits.minFee Limits.maxFee
  if merged.fees.out < merged.fees.mid then
    throw (.parameter "out_fee" merged.fees.out.render
      s!"out_fee >= mid_fee ({merged.fees.mid.render})")
  checkGiven "fee_gamma" u.feeGamma Limits.minFeeGamma Limits.maxFeeGamma
  checkGiven "repeg_profit_threshold" u.repegThreshold Limits.minRepegThreshold
    Limits.maxRepegThreshold
  checkGiven "min_price_scale_delta" u.minScaleDelta Limits.minScaleDelta Limits.maxScaleDelta
  match u.halfTime with
  | none => pure ()
  | some t => checkIntRange "ma_half_time" t Limits.minHalfTime Limits.maxHalfTime
  return merged

end PoolParams

end ConcentratedPool
