/-!
# Integer square root

`integerRoot n` is found by Newton's iteration on natural numbers. It starts from a power of two
that is not below the root (`rootStart`) and steps while the next value is smaller, so the value
itself is the measure by which the iteration ends.
-/

set_option autoImplicit false
set_option relaxedAutoImplicit false

namespace ConcentratedPool.Numeric

/-- The number of binary digits of `n`; zero has none. -/
def bitLength (n : Nat) : Nat :=
  if n = 0 then 0 else n.log2 + 1

/-- The least power of two whose exponent is at least half the number of binary digits of `n`. -/
def rootStart (n : Nat) : Nat :=
  Nat.pow 2 ((bitLength n + 1) / 2)

/-- Newton's step toward the square root of `n`. -/
def rootStep (n x : Nat) : Nat :=
  (x + n / x) / 2

/-- Steps from `x` downward until the next value is not smaller. -/
def descendToRoot (n x : Nat) : Nat :=
  if rootStep n x < x then descendToRoot n (rootStep n x) else x
termination_by x

/-- The integer square root. -/
def integerRoot (n : Nat) : Nat :=
  if n = 0 then 0 else descendToRoot n (rootStart n)

end ConcentratedPool.Numeric
