/-!
# Fixed-point decimals

A decimal is a whole number of units of `10⁻¹⁸`, its raw value. `Decimal` is unsigned with a raw
value below `2²⁵⁶`; `SignedDecimal` has a sign and the same bound on its magnitude. Both are
ordered by their raw values.
-/

set_option autoImplicit false
set_option relaxedAutoImplicit false

namespace ConcentratedPool

namespace Decimal

/-- The number of decimal places. -/
def places : Nat := 18

/-- The raw value of one. -/
def scale : Nat := 1_000_000_000_000_000_000

/-- The largest raw value, that of a 256-bit word: `2²⁵⁶ - 1`. -/
def maxRaw : Nat :=
  115792089237316195423570985008687907853269984665640564039457584007913129639935

end Decimal

/-- An unsigned decimal with 18 places. -/
@[ext] structure Decimal where
  raw : Nat
  raw_le : raw ≤ Decimal.maxRaw
deriving DecidableEq

/-- A decimal with a sign and 18 places. -/
@[ext] structure SignedDecimal where
  raw : Int
  natAbs_raw_le : raw.natAbs ≤ Decimal.maxRaw
deriving DecidableEq

namespace Decimal

instance : LE Decimal := ⟨fun a b ↦ a.raw ≤ b.raw⟩
instance : LT Decimal := ⟨fun a b ↦ a.raw < b.raw⟩
instance (a b : Decimal) : Decidable (a ≤ b) := inferInstanceAs (Decidable (a.raw ≤ b.raw))
instance (a b : Decimal) : Decidable (a < b) := inferInstanceAs (Decidable (a.raw < b.raw))

theorem le_def {a b : Decimal} : a ≤ b ↔ a.raw ≤ b.raw := Iff.rfl

theorem lt_def {a b : Decimal} : a < b ↔ a.raw < b.raw := Iff.rfl

/-- The decimal zero. -/
def zero : Decimal := ⟨0, Nat.zero_le _⟩

/-- The decimal one. -/
def one : Decimal := ⟨1_000_000_000_000_000_000, by decide⟩

/-- The decimal two, the number of assets in a pool. -/
def two : Decimal := ⟨2_000_000_000_000_000_000, by decide⟩

/-- The decimal three. -/
def three : Decimal := ⟨3_000_000_000_000_000_000, by decide⟩

/-- The decimal four. -/
def four : Decimal := ⟨4_000_000_000_000_000_000, by decide⟩

/-- The decimal ten. -/
def ten : Decimal := ⟨10_000_000_000_000_000_000, by decide⟩

instance : Inhabited Decimal := ⟨zero⟩

/-- Whether the value is zero. -/
def isZero (a : Decimal) : Bool := a.raw == 0

/-- The larger of two decimals. -/
def max (a b : Decimal) : Decimal := if a < b then b else a

/-- The same value with a sign. -/
def toSigned (a : Decimal) : SignedDecimal :=
  ⟨a.raw, by rw [Int.natAbs_natCast]; exact a.raw_le⟩

/-- The whole part. -/
def floor (a : Decimal) : Nat := a.raw / scale

end Decimal

namespace SignedDecimal

instance : LE SignedDecimal := ⟨fun a b ↦ a.raw ≤ b.raw⟩
instance : LT SignedDecimal := ⟨fun a b ↦ a.raw < b.raw⟩
instance (a b : SignedDecimal) : Decidable (a ≤ b) := inferInstanceAs (Decidable (a.raw ≤ b.raw))
instance (a b : SignedDecimal) : Decidable (a < b) := inferInstanceAs (Decidable (a.raw < b.raw))

theorem le_def {a b : SignedDecimal} : a ≤ b ↔ a.raw ≤ b.raw := Iff.rfl

theorem lt_def {a b : SignedDecimal} : a < b ↔ a.raw < b.raw := Iff.rfl

/-- The decimal zero. -/
def zero : SignedDecimal := Decimal.zero.toSigned

/-- The decimal one. -/
def one : SignedDecimal := Decimal.one.toSigned

/-- The decimal two. -/
def two : SignedDecimal := Decimal.two.toSigned

/-- The decimal four. -/
def four : SignedDecimal := Decimal.four.toSigned

/-- One half. -/
def half : SignedDecimal := ⟨500_000_000_000_000_000, by decide⟩

instance : Inhabited SignedDecimal := ⟨zero⟩

/-- Whether the value is zero. -/
def isZero (a : SignedDecimal) : Bool := a.raw == 0

/-- Whether the value is below zero. -/
def isNegative (a : SignedDecimal) : Bool := a.raw < 0

/-- The value with the other sign. -/
def neg (a : SignedDecimal) : SignedDecimal :=
  ⟨-a.raw, by rw [Int.natAbs_neg]; exact a.natAbs_raw_le⟩

instance : Neg SignedDecimal := ⟨neg⟩

/-- The magnitude. -/
def abs (a : SignedDecimal) : SignedDecimal :=
  ⟨a.raw.natAbs, by rw [Int.natAbs_natCast]; exact a.natAbs_raw_le⟩

/-- The greatest whole number that is not above the value. -/
def floor (a : SignedDecimal) : Int := a.raw / Decimal.scale

end SignedDecimal

end ConcentratedPool
