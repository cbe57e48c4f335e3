/-!
# Exact values of floats

A finite float is a whole number times a power of two (`Dyadic`). `nearestQuotient` goes the other
way: it rounds the quotient of two whole numbers to the nearest float, ties to the even mantissa,
and gives nothing where that is beyond the largest float. `truncate?` drops the fraction of a float
exactly, and `fixedPlaces` writes a float with a fixed number of places, rounding its exact value,
ties to the even last digit.
-/

set_option autoImplicit false
set_option relaxedAutoImplicit false

namespace ConcentratedPool.Numeric

/-- The value `± mantissa · 2 ^ exponent`. -/
structure Dyadic where
  negative : Bool
  mantissa : Nat
  exponent : Int
deriving DecidableEq, Repr

/-- The first bit of a mantissa of 53 bits, which is not stored. -/
def hiddenBit : Nat := 4_503_599_627_370_496

/-- The sign bit of a float. -/
def signBit (x : Float) : Bool := x.toBits >>> 63 == 1

/-- The exact value of a finite float. -/
def Dyadic.ofFloat? (x : Float) : Option Dyadic :=
  let bits := x.toBits.toNat
  let exponent : Nat := bits / hiddenBit % 2048
  let fraction : Nat := bits % hiddenBit
  if exponent = 2047 then none
  else if exponent = 0 then some ⟨signBit x, fraction, -1074⟩
  else some ⟨signBit x, hiddenBit + fraction, (exponent : Int) - 1075⟩

/-- The quotient of natural numbers rounded to the nearest, ties to even. -/
def roundDiv (numerator denominator : Nat) : Nat :=
  let q := numerator / denominator
  let r := numerator % denominator
  if 2 * r < denominator ∨ (2 * r = denominator ∧ q % 2 = 0) then q else q + 1

/-- The exponent of the last bit of the float nearest to `numerator / denominator`: 53 bits are
kept, fewer below the normal range. -/
def lastBitExponent (numerator denominator : Nat) : Int :=
  let d : Int := (numerator.log2 : Int) - denominator.log2
  let reaches := denominator * Nat.pow 2 d.toNat ≤ numerator * Nat.pow 2 (-d).toNat
  max (if reaches then d - 52 else d - 53) (-1074)

/-- The bits of the positive float nearest to `numerator / denominator`; a mantissa that rounds up
to the next power of two carries into the exponent. -/
def nearestBits (numerator denominator : Nat) : Nat :=
  let e := lastBitExponent numerator denominator
  let mantissa := roundDiv (numerator * Nat.pow 2 (-e).toNat) (denominator * Nat.pow 2 e.toNat)
  (e + 1074).toNat * hiddenBit + mantissa

/-- The bits of positive infinity. -/
def infinityBits : Nat := 2047 * hiddenBit

/-- The float with the given sign nearest to the quotient of two natural numbers. -/
def nearestRatio (negative : Bool) (numerator denominator : Nat) : Option Float :=
  let bits := if numerator = 0 then 0 else nearestBits numerator denominator
  if bits < infinityBits then
    some (Float.ofBits (UInt64.ofNat (bits + if negative then Nat.pow 2 63 else 0)))
  else none

/-- The float nearest to the quotient of a whole number by a positive one. -/
def nearestQuotient (numerator : Int) (denominator : Nat) : Option Float :=
  nearestRatio (numerator < 0) numerator.natAbs denominator

/-- The float nearest to a whole number. -/
def nearestInt (n : Int) : Option Float := nearestQuotient n 1

/-- The whole part of a finite float, rounded toward zero. -/
def truncate? (x : Float) : Option Int :=
  (Dyadic.ofFloat? x).map fun d ↦
    let magnitude : Nat := d.mantissa * Nat.pow 2 d.exponent.toNat / Nat.pow 2 (-d.exponent).toNat
    if d.negative then -magnitude else magnitude

/-- A float written with `places` places behind the point. -/
def fixedPlaces (places : Nat) (x : Float) : String :=
  match Dyadic.ofFloat? x with
  | none => if x.isNaN then "nan" else if signBit x then "-inf" else "inf"
  | some d =>
    let units := roundDiv (d.mantissa * Nat.pow 2 d.exponent.toNat * Nat.pow 10 places)
      (Nat.pow 2 (-d.exponent).toNat)
    let digits := Nat.toDigits 10 units
    let padded := List.replicate (places + 1 - digits.length) '0' ++ digits
    let (whole, fraction) := padded.splitAt (padded.length - places)
    String.ofList ((if d.negative then ['-'] else []) ++ whole ++
      if places = 0 then [] else '.' :: fraction)

end ConcentratedPool.Numeric
