import ConcentratedPool.Decimal.Basic

/-!
# Constants and limits

Tolerances of the solvers, precisions of amounts, and the ranges that governance has to keep to.
Decimals are given by their raw values, in units of `10⁻¹⁸`.
-/

set_option autoImplicit false
set_option relaxedAutoImplicit false

namespace ConcentratedPool.Limits

/-! ### Slippage -/

/-- The slippage that is accepted where none is given: 5 %. -/
def defaultSlippage : Decimal := ⟨50_000_000_000_000_000, by decide⟩

/-- The largest slippage that may be asked for: 50 %. -/
def maxSlippage : Decimal := ⟨500_000_000_000_000_000, by decide⟩

/-! ### Solvers -/

/-- The solvers stop when two neighbouring iterates are no further apart than 0.001. -/
def tolerance : Decimal := ⟨1_000_000_000_000_000, by decide⟩

/-- The series of a fractional power of one half stops at a term below `10⁻¹⁰`. -/
def halfPowerTolerance : Decimal := ⟨100_000_000, by decide⟩

/-- A share of the middle fee of at most 0.001 is dropped. -/
def feeTolerance : Decimal := ⟨1_000_000_000_000_000, by decide⟩

/-- The number of steps after which a solver gives up. -/
def maxIterations : Nat := 64

/-! ### Amounts -/

/-- The number of places of pool shares. -/
def sharePrecision : Nat := 6

/-- The shares that the first deposit leaves to the pool for ever. -/
def lockedShares : Nat := 1000

/-- The number of places with which prices are accumulated. -/
def cumulativePrecision : Nat := 6

/-- Accumulated prices are kept modulo `2¹²⁸`. -/
def cumulativeModulus : Nat := 340_282_366_920_938_463_463_374_607_431_768_211_456

/-! ### Ranges of parameters -/

def minFee : Decimal := ⟨1_000_000_000_000_000, by decide⟩

def maxFee : Decimal := ⟨500_000_000_000_000_000, by decide⟩

def minFeeGamma : Decimal := ⟨10_000_000_000, by decide⟩

def maxFeeGamma : Decimal := ⟨20_000_000_000_000_000, by decide⟩

def minRepegThreshold : Decimal := .zero

def maxRepegThreshold : Decimal := ⟨10_000_000_000_000_000, by decide⟩

def minScaleDelta : Decimal := ⟨10_000_000, by decide⟩

def maxScaleDelta : Decimal := .one

def minHalfTime : Int := 0

/-- One week in seconds. -/
def maxHalfTime : Int := 7 * 86400

def minAmplification : Decimal := ⟨400_000_000_000_000_000, by decide⟩

def maxAmplification : Decimal := ⟨400_000_000_000_000_000_000_000, by decide⟩

def minGamma : Decimal := ⟨100_000_000_000, by decide⟩

def maxGamma : Decimal := ⟨20_000_000_000_000_000, by decide⟩

/-- The shortest time between two changes of the curve, and the shortest promotion: one day. -/
def minPromotionTime : Int := 86400

/-- The largest relative change of a curve parameter in one promotion: 10 %. -/
def maxPromotionChange : Decimal := ⟨100_000_000_000_000_000, by decide⟩

end ConcentratedPool.Limits
