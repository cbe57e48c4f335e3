import ConcentratedPool.Decimal.Arithmetic
import ConcentratedPool.Pair

/-!
# The concentrated liquidity curve

With the balances `x₀` and `x₁` in units of equal value, the invariant `D`, the amplification `A`
and the concentration `γ`, the curve is the zero set of

  `F = K D (x₀ + x₁) + x₀ x₁ - K D² - D² / 4`, where
  `K₀ = 4 x₀ x₁ / D²` and `K = A K₀ γ² / (γ + 1 - K₀)²`.

`Curve.residual` evaluates `F`, `Curve.slopeInvariant` its derivative by `D` and
`Curve.slopeBalance` its derivative by one balance, each in checked signed decimals.
-/

set_option autoImplicit false
set_option relaxedAutoImplicit false

namespace ConcentratedPool

/-- The two parameters that shape the curve, with a sign for the solvers. -/
structure Curve where
  amplification : SignedDecimal
  gamma : SignedDecimal
deriving DecidableEq

namespace Curve

/-- The coefficients of the curve at a point: `K₀`, `γ + 1 - K₀` and `K`. -/
structure Coefficients where
  product : SignedDecimal
  gap : SignedDecimal
  weight : SignedDecimal
deriving DecidableEq

/-- The coefficients for the invariant `d` and the balances `x`. The quotient of `γ` by the gap is
taken first, which keeps places when `γ` is tiny. -/
def coefficients (c : Curve) (d : SignedDecimal) (x : Pair SignedDecimal) :
    Except Fault Coefficients := do
  let product ← (← (← x.base * x.quote) * SignedDecimal.four) / (← d * d)
  let gap ← (← c.gamma + SignedDecimal.one) - product
  let ratio ← c.gamma / gap
  let weight ← (← (← c.amplification * product) * ratio) * ratio
  return ⟨product, gap, weight⟩

/-- The value of `F`. -/
def residual (c : Curve) (d : SignedDecimal) (x : Pair SignedDecimal) :
    Except Fault SignedDecimal := do
  let k := (← c.coefficients d x).weight
  let square ← d * d
  let lifted ← (← k * d) * (← x.base + x.quote)
  let upper ← lifted + (← x.base * x.quote)
  (← upper - (← k * square)) - (← square / SignedDecimal.four)

/-- The derivative of `F` by the invariant. -/
def slopeInvariant (c : Curve) (d : SignedDecimal) (x : Pair SignedDecimal) :
    Except Fault SignedDecimal := do
  let ⟨product, gap, k⟩ ← c.coefficients d x
  let twice ← k * SignedDecimal.two
  let rise ← (← twice * (← (← c.gamma + SignedDecimal.one) + product)) / gap
  let fall := -rise
  let upper ← (← fall + k) * (← x.base + x.quote)
  (← upper - (← (← fall + twice) * d)) - (← d / SignedDecimal.two)

/-- The derivative of `F` by the balance on one side. -/
def slopeBalance (c : Curve) (d : SignedDecimal) (x : Pair SignedDecimal) (side : Side) :
    Except Fault SignedDecimal := do
  let ⟨product, gap, k⟩ ← c.coefficients d x
  let rise ← (← k * (← (← c.gamma + SignedDecimal.one) + product)) / (← gap * x.get side)
  let lifted ← (← rise * d) * (← (← x.base + x.quote) - d)
  (← lifted + (← k * d)) + x.get side.other

end Curve

end ConcentratedPool
