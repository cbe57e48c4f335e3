import ConcentratedPool.Decimal.Arithmetic
import ConcentratedPool.Limits

/-!
# Powers of one half

`halfPower p` is `(1/2) ^ p`. The whole part of the exponent is an exact shift; the power with the
fractional part `f` is the binomial series of `(1 - 1/2) ^ f`, summed until a term is below
`Limits.halfPowerTolerance`.
-/

set_option autoImplicit false
set_option relaxedAutoImplicit false

namespace ConcentratedPool

/-- The `k`-th term of the series of `(1 - 1/2) ^ f`, from the term before it. -/
def binomialTerm (f term : SignedDecimal) (k : Nat) : Except Fault SignedDecimal := do
  let reduced ← f - (← SignedDecimal.ofInt (k - 1 : Nat))
  (← (← term * reduced) * -SignedDecimal.half) / (← SignedDecimal.ofInt k)

/-- Adds terms of the series to `total`, beginning with the `k`-th, until one is small. -/
def binomialSum (f : SignedDecimal) : Nat → Nat → SignedDecimal → SignedDecimal →
    Except Fault SignedDecimal
  | 0, _, _, _ => .error (.notConverging .halfPower)
  | steps + 1, k, term, total => do
    let term ← binomialTerm f term k
    let total ← total + term
    if term.abs < Limits.halfPowerTolerance.toSigned then return total
    binomialSum f steps (k + 1) term total

/-- One half to the power of `power`. -/
def halfPower (power : Decimal) : Except Fault Decimal := do
  let whole := power.floor
  let fraction : Decimal := ⟨power.raw % Decimal.scale, Nat.le_trans (Nat.mod_le _ _) power.raw_le⟩
  let shifted : Decimal := ⟨Decimal.one.raw >>> whole,
    Nat.le_trans (Nat.shiftRight_le _ _) Decimal.one.raw_le⟩
  if fraction.isZero then return shifted
  let sum ← binomialSum fraction.toSigned Limits.maxIterations 1 SignedDecimal.one SignedDecimal.one
  shifted * (← sum.toUnsigned)

end ConcentratedPool
