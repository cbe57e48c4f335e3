import ConcentratedPool.Iteration
import ConcentratedPool.Swap

/-!
# Swaps at a stable price

The curve of two assets of equal value with the amplification `A`: with `s` the sum of the balances
and `n = 4 A`, the invariant `d` solves `n s + d = n d + d³ / (4 x₀ x₁)`.
-/

set_option autoImplicit false
set_option relaxedAutoImplicit false

namespace ConcentratedPool.Stable

/-- One step toward the invariant of the balances `x`, whose sum is `s`. -/
def stepInvariant (x : Pair Decimal) (n s d : Decimal) : Except Fault Decimal := do
  let first ← (← d * d) / (← x.base * Decimal.two)
  let power ← (← first * d) / (← x.quote * Decimal.two)
  let upper ← (← (← n * s) + (← power * Decimal.two)) * d
  let kept ← (← n - Decimal.one) * d
  upper / (← kept + (← Decimal.three * power))

/-- The invariant of two balances. -/
def invariant (x : Pair Decimal) (amp : Decimal) : Except Fault Decimal := do
  let n ← amp * Decimal.four
  if n ≤ Decimal.one then throw (.parameter "amp" amp.render "amp * 4 > 1")
  let s ← x.base + x.quote
  settle .stableInvariant (stepInvariant x n s) Decimal.isClose Limits.maxIterations s

/-- One step toward the balance that solves `y² + (b - d) y = c`. -/
def stepBalance (b c d y : SignedDecimal) : Except Fault SignedDecimal := do
  let upper ← (← y * y) + c
  upper / (← (← (← y * SignedDecimal.two) + b) - d)

/-- The balance beside `x` that keeps the invariant `d`. -/
def balance (x d amp : Decimal) : Except Fault Decimal := do
  let n := (← amp * Decimal.four).toSigned
  let sd := d.toSigned
  let square ← sd * sd
  let first ← square / (← x * Decimal.two).toSigned
  let c ← (← first * sd) / (← n * SignedDecimal.two)
  let b ← x.toSigned + (← sd / n)
  let y ← settle .stableBalance (stepBalance b c sd) SignedDecimal.isClose Limits.maxIterations sd
  y.toUnsigned

/-- Prices a swap of `offer` units of the asset on one side. -/
def quoteSwap (pools : Pair Decimal) (side : Side) (offer amp rate : Decimal) :
    Except Fault SwapQuote := do
  let d ← invariant pools amp
  let y ← balance (← pools.get side + offer) d amp
  if pools.get side.other ≤ y then throw (.shortage .noOutput)
  let gross ← pools.get side.other - y
  let fee ← gross * rate
  return ⟨← gross - fee, offer.monus gross, .zero, fee, rate⟩

end ConcentratedPool.Stable
