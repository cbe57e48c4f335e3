import ConcentratedPool.Fault

/-!
# Price paths

A price path lists the market price at every step, the one at the start included. The log price
does a random walk, so the price grows by the exponential of the sum of the log returns so far. The
random numbers are drawn from a `NormalSource`, which is a parameter of everything that makes a
path.
-/

set_option autoImplicit false
set_option relaxedAutoImplicit false

namespace ConcentratedPool

/-- A source of standard normal numbers. -/
structure NormalSource where
  /-- Draws as many numbers as are asked for, from a seed if there is one. -/
  draws : Option Nat → Nat → List Float
  length_draws : ∀ seed count, (draws seed count).length = count

/-- The source that draws nothing but zeros. -/
instance : Zero NormalSource where
  zero := ⟨fun _ count ↦ List.replicate count 0.0, fun _ _ ↦ List.length_replicate⟩

/-- How a market price moves at random. -/
structure RandomWalk where
  /-- The standard deviation of the log price over one step. -/
  volatility : Float
  /-- The expected growth of the log price over one step. -/
  drift : Float

namespace RandomWalk

/-- The log return of one step, from a standard normal number. The growth of the mean price that the
variance of the log price brings is taken off. -/
def logReturn (walk : RandomWalk) (draw : Float) : Float :=
  walk.drift - 0.5 * (walk.volatility * walk.volatility) + walk.volatility * draw

/-- The sums of the first log returns, starting from the sum so far. -/
def logGrowth (walk : RandomWalk) : Float → List Float → List Float
  | sum, [] => [sum]
  | sum, draw :: draws => sum :: walk.logGrowth (sum + walk.logReturn draw) draws

theorem length_logGrowth (walk : RandomWalk) (sum : Float) (draws : List Float) :
    (walk.logGrowth sum draws).length = draws.length + 1 := by
  induction draws generalizing sum with
  | nil => rfl
  | cons draw draws ih => rw [logGrowth, List.length_cons, ih, List.length_cons]

/-- The path from an initial price with one step for each draw. -/
def path (walk : RandomWalk) (initial : Float) (draws : List Float) : List Float :=
  (walk.logGrowth 0.0 draws).map fun growth ↦ initial * growth.exp

theorem length_path (walk : RandomWalk) (initial : Float) (draws : List Float) :
    (walk.path initial draws).length = draws.length + 1 := by
  rw [path, List.length_map, length_logGrowth]

end RandomWalk

namespace PricePath

/-- A path of `steps` steps. -/
def generate (walk : RandomWalk) (initial : Float) (steps : Int) (seed : Option Int)
    (source : NormalSource) : Except Fault (List Float) :=
  if initial ≤ 0.0 then .error .nonPositivePrice
  else if steps < 0 ∨ seed.any (· < 0) then .error .negativeCount
  else .ok (walk.path initial (source.draws (seed.map Int.toNat) steps.toNat))

/-- A number of steps is not negative, and a path has one price more. -/
theorem length_generate {walk : RandomWalk} {initial : Float} {steps : Int} {seed : Option Int}
    {source : NormalSource} {path : List Float}
    (h : generate walk initial steps seed source = .ok path) :
    0 ≤ steps ∧ (path.length : Int) = steps + 1 := by
  unfold generate at h
  split at h
  next => cases h
  next =>
    split at h
    next => cases h
    next hcounts =>
      cases h
      have hsteps : 0 ≤ steps := Int.not_lt.mp fun hneg ↦ hcounts (.inl hneg)
      refine ⟨hsteps, ?_⟩
      rw [RandomWalk.length_path, source.length_draws, Int.natCast_add, Int.toNat_of_nonneg hsteps]
      rfl

/-- The step at a position, where a negative position counts back from the end of the path. -/
def stepAt (path : List Float) (position : Int) : Nat :=
  if position < 0 then (position + path.length).toNat else position.toNat

/-- Multiplies every price from a position on by `1 + shock`. -/
def applyShock (path : List Float) (position : Int) (shock : Float) : List Float :=
  let (before, after) := path.splitAt (stepAt path position)
  before ++ after.map (· * (1.0 + shock))

theorem length_applyShock (path : List Float) (position : Int) (shock : Float) :
    (applyShock path position shock).length = path.length := by
  simp only [applyShock, List.splitAt_eq, List.length_append, List.length_map, List.length_take,
    List.length_drop]
  omega

end PricePath

end ConcentratedPool
