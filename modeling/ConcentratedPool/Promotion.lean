import ConcentratedPool.AmpGamma

/-!
# Promotions of the curve parameters

A promotion moves the curve parameters of a pool from an initial to a future value along a straight
line between two times. Before the first and after the second time they rest. `Promotion.effective`
are the parameters at a time; `Promotion.start?` and `Promotion.stop?` are the two things that
governance can do, and keep to its limits of time and size.
-/

set_option autoImplicit false
set_option relaxedAutoImplicit false

namespace ConcentratedPool

/-- The mean of two decimals with natural weights, rounded down. -/
def Decimal.mix (a b : Decimal) (m n : Nat) : Decimal :=
  ⟨(a.raw * m + b.raw * n) / (m + n), by
    refine Nat.div_le_of_le_mul ?_
    rw [Nat.add_mul]
    refine Nat.add_le_add ?_ ?_
    · rw [Nat.mul_comm m]; exact Nat.mul_le_mul_right m a.raw_le
    · rw [Nat.mul_comm n]; exact Nat.mul_le_mul_right n b.raw_le⟩

/-- Curve parameters on their way from one value to another. Times are seconds. -/
structure Promotion where
  initial : AmpGamma
  future : AmpGamma
  initialTime : Int
  futureTime : Int
deriving DecidableEq

namespace Promotion

/-- Curve parameters at rest since `now`. -/
def rest (a : AmpGamma) (now : Int) : Promotion := ⟨a, a, now, now⟩

/-- Whether the future value is not reached yet. -/
def isActive (p : Promotion) (now : Int) : Bool := now < p.futureTime

/-- The curve parameters at a time. -/
def effective (p : Promotion) (now : Int) : AmpGamma :=
  if p.futureTime ≤ now then p.future
  else if now ≤ p.initialTime then p.initial
  else
    let remaining := (p.futureTime - now).toNat
    let passed := (now - p.initialTime).toNat
    ⟨p.initial.amp.mix p.future.amp remaining passed,
      p.initial.gamma.mix p.future.gamma remaining passed⟩

/-- The relative change from one decimal to another. -/
def relativeChange (current next : Decimal) : Except Fault Decimal := do
  return (← next / current).distance Decimal.one

/-- Starts a promotion to new curve parameters, from the ones that are effective now. -/
def start? (p : Promotion) (now : Int) (amp gamma : Decimal) (futureTime : Int) :
    Except Fault Promotion := do
  if p.isActive now then throw (.promotion .inProgress)
  if now < p.initialTime + Limits.minPromotionTime then
    throw (.promotion (.tooEarly Limits.minPromotionTime))
  if futureTime < now + Limits.minPromotionTime then
    throw (.promotion (.windowTooShort Limits.minPromotionTime))
  let next ← AmpGamma.new amp gamma
  let current := p.effective now
  let ampChange ← relativeChange current.amp next.amp
  if Limits.maxPromotionChange < ampChange then
    throw (.promotion (.amplificationJump ampChange Limits.maxPromotionChange))
  let gammaChange ← relativeChange current.gamma next.gamma
  if Limits.maxPromotionChange < gammaChange then
    throw (.promotion (.gammaJump gammaChange Limits.maxPromotionChange))
  return ⟨current, next, now, futureTime⟩

/-- Stops a promotion at the value that it has reached. -/
def stop? (p : Promotion) (now : Int) : Except Fault Promotion := do
  if !p.isActive now then throw (.promotion .notInProgress)
  let current := p.effective now
  return ⟨current, current, p.initialTime, now⟩

end Promotion

end ConcentratedPool
