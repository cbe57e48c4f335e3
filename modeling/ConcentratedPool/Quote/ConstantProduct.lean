import ConcentratedPool.Swap

/-!
# Swaps at a constant product

The product of the balances stays what it is before the fee, which is taken from the output.
-/

set_option autoImplicit false
set_option relaxedAutoImplicit false

namespace ConcentratedPool.ConstantProduct

/-- Prices a swap of `offer` units of the asset on one side. -/
def quoteSwap (pools : Pair Decimal) (side : Side) (offer rate : Decimal) :
    Except Fault SwapQuote := do
  let offerPool := pools.get side
  let askPool := pools.get side.other
  let gross ← (← askPool * offer) / (← offerPool + offer)
  let ideal ← (← offer * askPool) / offerPool
  let fee ← gross * rate
  return ⟨← gross - fee, ideal.monus gross, .zero, fee, rate⟩

end ConcentratedPool.ConstantProduct
