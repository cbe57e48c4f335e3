import ConcentratedPool.Pool.Basic

/-!
# Governance of a pool

Promotions of the curve parameters and updates of the fee and repeg parameters.
-/

set_option autoImplicit false
set_option relaxedAutoImplicit false

namespace ConcentratedPool.Pool

/-- Starts a promotion of the curve parameters. -/
def promote (p : Pool) (request : PromotionRequest) (now : Int) : Except Fault Pool := do
  let promotion ←
    p.state.promotion.start? now request.amp request.gamma request.futureTime
  return { p with state.promotion := promotion }

/-- Stops the promotion of the curve parameters where it is. -/
def stopPromotion (p : Pool) (now : Int) : Except Fault Pool := do
  return { p with state.promotion := ← p.state.promotion.stop? now }

/-- Updates some of the fee and repeg parameters. -/
def updateParams (p : Pool) (update : ParamUpdate) : Except Fault Pool := do
  return { p with params := ← p.params.update? update }

end ConcentratedPool.Pool
