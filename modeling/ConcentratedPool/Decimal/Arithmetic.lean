import ConcentratedPool.Fault
import ConcentratedPool.Numeric.IntegerRoot

/-!
# Checked arithmetic of decimals

Every operation gives the exact result rounded to 18 places, or refuses: unsigned products and
quotients are rounded down, signed ones toward zero, and a result outside the range of its kind is a
fault. The operators `+`, `-`, `*` and `/` between two decimals of one kind are the checked ones.
-/

set_option autoImplicit false
set_option relaxedAutoImplicit false

namespace ConcentratedPool

namespace Decimal

/-- The decimal of `raw` units. -/
def ofNatRaw (raw : Nat) : Except Fault Decimal :=
  if h : raw ≤ maxRaw then .ok ⟨raw, h⟩ else .error (.arithmetic .overflow)

/-- The decimal of `raw` units, where `raw` may turn out negative. -/
def ofRaw (raw : Int) : Except Fault Decimal :=
  if raw < 0 then .error (.arithmetic .underflow) else ofNatRaw raw.toNat

/-- A whole number as a decimal. -/
def ofInt (value : Int) : Except Fault Decimal := ofRaw (value * scale)

/-- The quotient of two whole numbers, rounded down. -/
def ofRatio (numerator denominator : Int) : Except Fault Decimal :=
  if denominator = 0 then .error (.arithmetic .divisionByZero)
  else ofRaw (Int.fdiv (numerator * scale) denominator)

/-- The number of units in one token unit of an asset with `precision` places. -/
def unitsOf (precision : Int) : Except Fault Nat :=
  if precision > places then .error (.arithmetic (.excessPrecision precision))
  else .ok (Nat.pow 10 (places - precision).toNat)

/-- A token amount of an asset with `precision` places. -/
def ofTokens (amount precision : Int) : Except Fault Decimal := do
  ofRaw (amount * (← unitsOf precision))

/-- The token amount of an asset with `precision` places, rounded down. -/
def toTokens (a : Decimal) (precision : Int) : Except Fault Nat := do
  return a.raw / (← unitsOf precision)

def add (a b : Decimal) : Except Fault Decimal := ofNatRaw (a.raw + b.raw)

def sub (a b : Decimal) : Except Fault Decimal := ofRaw (a.raw - b.raw)

/-- The product, rounded down. -/
def mul (a b : Decimal) : Except Fault Decimal := ofNatRaw (a.raw * b.raw / scale)

/-- The quotient, rounded down. -/
def div (a b : Decimal) : Except Fault Decimal :=
  if b.raw = 0 then .error (.arithmetic .divisionByZero)
  else ofNatRaw (a.raw * scale / b.raw)

instance : HAdd Decimal Decimal (Except Fault Decimal) := ⟨add⟩
instance : HSub Decimal Decimal (Except Fault Decimal) := ⟨sub⟩
instance : HMul Decimal Decimal (Except Fault Decimal) := ⟨mul⟩
instance : HDiv Decimal Decimal (Except Fault Decimal) := ⟨div⟩

/-- The distance between two decimals. -/
def distance (a b : Decimal) : Decimal :=
  ⟨(a.raw - b.raw) + (b.raw - a.raw), by have := a.raw_le; have := b.raw_le; omega⟩

/-- The difference, or zero where it would be negative. -/
def monus (a b : Decimal) : Decimal :=
  ⟨a.raw - b.raw, Nat.le_trans (Nat.sub_le _ _) a.raw_le⟩

/-- The reciprocal. -/
def inv (a : Decimal) : Except Fault Decimal := one / a

/-- The square root, rounded down. -/
def sqrt (a : Decimal) : Except Fault Decimal := ofNatRaw (Numeric.integerRoot (a.raw * scale))

/-- Multiplies `product` by `a`, `n` times, rounding after each factor. -/
def mulTimes (a : Decimal) : Nat → Decimal → Except Fault Decimal
  | 0, product => .ok product
  | n + 1, product => do mulTimes a n (← product * a)

/-- The power with a whole exponent. -/
def pow (a : Decimal) (n : Nat) : Except Fault Decimal := mulTimes a n one

end Decimal

namespace SignedDecimal

/-- The signed decimal of `raw` units. -/
def ofRaw (raw : Int) : Except Fault SignedDecimal :=
  if h : raw.natAbs ≤ Decimal.maxRaw then .ok ⟨raw, h⟩ else .error (.arithmetic .signedOverflow)

/-- A whole number as a signed decimal. -/
def ofInt (value : Int) : Except Fault SignedDecimal := ofRaw (value * Decimal.scale)

/-- The quotient of two whole numbers, rounded down. -/
def ofRatio (numerator denominator : Int) : Except Fault SignedDecimal :=
  if denominator = 0 then .error (.arithmetic .divisionByZero)
  else ofRaw (Int.fdiv (numerator * Decimal.scale) denominator)

/-- A token amount of an asset with `precision` places. -/
def ofTokens (amount precision : Int) : Except Fault SignedDecimal := do
  ofRaw (amount * (← Decimal.unitsOf precision))

/-- The token amount of an asset with `precision` places, rounded down. -/
def toTokens (a : SignedDecimal) (precision : Int) : Except Fault Int := do
  return Int.fdiv a.raw (← Decimal.unitsOf precision)

def add (a b : SignedDecimal) : Except Fault SignedDecimal := ofRaw (a.raw + b.raw)

def sub (a b : SignedDecimal) : Except Fault SignedDecimal := ofRaw (a.raw - b.raw)

/-- The product, rounded toward zero. -/
def mul (a b : SignedDecimal) : Except Fault SignedDecimal :=
  ofRaw (Int.tdiv (a.raw * b.raw) Decimal.scale)

/-- The quotient, rounded toward zero. -/
def div (a b : SignedDecimal) : Except Fault SignedDecimal :=
  if b.raw = 0 then .error (.arithmetic .divisionByZero)
  else ofRaw (Int.tdiv (a.raw * Decimal.scale) b.raw)

instance : HAdd SignedDecimal SignedDecimal (Except Fault SignedDecimal) := ⟨add⟩
instance : HSub SignedDecimal SignedDecimal (Except Fault SignedDecimal) := ⟨sub⟩
instance : HMul SignedDecimal SignedDecimal (Except Fault SignedDecimal) := ⟨mul⟩
instance : HDiv SignedDecimal SignedDecimal (Except Fault SignedDecimal) := ⟨div⟩

/-- The distance between two signed decimals. -/
def distance (a b : SignedDecimal) : Except Fault SignedDecimal := ofRaw (a.raw - b.raw).natAbs

/-- The difference, or zero where it would be negative. -/
def monus (a b : SignedDecimal) : Except Fault SignedDecimal := ofRaw (max (a.raw - b.raw) 0)

/-- The reciprocal. -/
def inv (a : SignedDecimal) : Except Fault SignedDecimal := one / a

/-- The square root, rounded down. -/
def sqrt (a : SignedDecimal) : Except Fault SignedDecimal :=
  if a.raw < 0 then .error (.arithmetic .negativeRoot)
  else ofRaw (Numeric.integerRoot (a.raw.toNat * Decimal.scale))

/-- Multiplies `product` by `a`, `n` times, rounding after each factor. -/
def mulTimes (a : SignedDecimal) : Nat → SignedDecimal → Except Fault SignedDecimal
  | 0, product => .ok product
  | n + 1, product => do mulTimes a n (← product * a)

/-- The power with a whole exponent. -/
def pow (a : SignedDecimal) (n : Nat) : Except Fault SignedDecimal := mulTimes a n one

/-- The same value without a sign. -/
def toUnsigned (a : SignedDecimal) : Except Fault Decimal :=
  if a.raw < 0 then .error (.arithmetic .negativeMagnitude) else Decimal.ofRaw a.raw

end SignedDecimal

end ConcentratedPool
