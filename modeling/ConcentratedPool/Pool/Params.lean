import ConcentratedPool.PoolParams
import ConcentratedPool.Record.Field

/-!
# Requests to a pool

The records with which a pool is created, its parameters are updated and a promotion is asked for.
Reading them checks the form of the fields only; the pool checks their ranges.
-/

set_option autoImplicit false
set_option relaxedAutoImplicit false

namespace ConcentratedPool

open Record

/-- The parameters of a new pool. -/
structure InitialParams where
  amp : Decimal
  gamma : Decimal
  midFee : Decimal
  outFee : Decimal
  feeGamma : Decimal
  repegThreshold : Decimal
  minScaleDelta : Decimal
  priceScale : Decimal
  halfTime : Int
deriving DecidableEq

/-- A request to promote the curve parameters. -/
structure PromotionRequest where
  amp : Decimal
  gamma : Decimal
  futureTime : Int
deriving DecidableEq

/-- Reads the parameters of a new pool. -/
def InitialParams.read (fields : Fields) : Reading InitialParams :=
  InitialParams.mk <$> required fields "amp" decimal
    <*> required fields "gamma" decimal
    <*> required fields "mid_fee" decimal
    <*> required fields "out_fee" decimal
    <*> required fields "fee_gamma" decimal
    <*> required fields "repeg_profit_threshold" decimal
    <*> required fields "min_price_scale_delta" decimal
    <*> required fields "price_scale" decimal
    <*> required fields "ma_half_time" (intAtLeast 0)

/-- The fee and repeg parameters of a new pool, as an update. -/
def InitialParams.toUpdate (p : InitialParams) : ParamUpdate where
  midFee := some p.midFee
  outFee := some p.outFee
  feeGamma := some p.feeGamma
  repegThreshold := some p.repegThreshold
  minScaleDelta := some p.minScaleDelta
  halfTime := some p.halfTime

/-- Reads a partial update; fields that are absent or null stay as they are. -/
def ParamUpdate.read (fields : Fields) : Reading ParamUpdate :=
  ParamUpdate.mk <$> optional fields "mid_fee" none (nullable decimal)
    <*> optional fields "out_fee" none (nullable decimal)
    <*> optional fields "fee_gamma" none (nullable decimal)
    <*> optional fields "repeg_profit_threshold" none (nullable decimal)
    <*> optional fields "min_price_scale_delta" none (nullable decimal)
    <*> optional fields "ma_half_time" none (nullable (intAtLeast 0))

/-- Reads a request for a promotion. -/
def PromotionRequest.read (fields : Fields) : Reading PromotionRequest :=
  PromotionRequest.mk <$> required fields "next_amp" decimal
    <*> required fields "next_gamma" decimal
    <*> required fields "future_time" (intAtLeast 0)

end ConcentratedPool
