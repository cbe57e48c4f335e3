import ConcentratedPool.Market.PricePath

/-!
# Normal draws

`polarSource` is the source of standard normal numbers that the program runs with. A generator gives
pairs of uniform numbers, and the polar angle and radius made from each pair give a pair of normal
ones. Nothing but the program rests on this choice.
-/

set_option autoImplicit false
set_option relaxedAutoImplicit false

namespace ConcentratedPool.Market

/-- A number above zero and at most one. -/
def uniformDraw (generator : StdGen) : Float × StdGen :=
  let (n, next) := randNat generator 1 1_000_000_000
  (n.toFloat / 1.0e9, next)

/-- The radius and the angle of a random point of the plane, as its two coordinates. -/
def normalPair (u v : Float) : Float × Float :=
  let radius := Float.sqrt (-2.0 * Float.log u)
  let angle := 2.0 * 3.141592653589793 * v
  (radius * Float.cos angle, radius * Float.sin angle)

/-- Standard normal numbers, `count` pairs of them. -/
def normalPairs : Nat → StdGen → List Float
  | 0, _ => []
  | count + 1, generator =>
    let (u, generator) := uniformDraw generator
    let (v, generator) := uniformDraw generator
    let (x, y) := normalPair u v
    x :: y :: normalPairs count generator

theorem length_normalPairs (count : Nat) (generator : StdGen) :
    (normalPairs count generator).length = 2 * count := by
  induction count generalizing generator with
  | zero => rfl
  | succ count ih =>
    simp only [normalPairs, List.length_cons, ih]
    omega

/-- Draws numbers that depend on the seed only. Where there is none, `entropy` is the seed. -/
def polarSource (entropy : Nat) : NormalSource where
  draws seed count :=
    (normalPairs ((count + 1) / 2) (mkStdGen (seed.getD entropy))).take count
  length_draws seed count := by
    rw [List.length_take, length_normalPairs]
    omega

end ConcentratedPool.Market
