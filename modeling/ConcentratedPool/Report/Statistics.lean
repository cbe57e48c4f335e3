/-!
# Statistics of floats

Sums, means, maxima and the spread of a list of floats. A value that is no number counts as missing
in sums, means and maxima; the standard deviation takes all values. `total` adds in an order that
keeps rounding errors small: in halves as long as there are many values, and in eight strands side
by side then.
-/

set_option autoImplicit false
set_option relaxedAutoImplicit false

namespace ConcentratedPool.Statistics

/-! ### Sums -/

/-- How many values are added together. -/
def blockLength : Nat := 8

/-- Adds values to a sum, one after the other. -/
def addAll (sum : Float) (xs : List Float) : Float := xs.foldl (· + ·) sum

/-- Adds each block of eight values to eight strands, and gives what is less than a block. -/
def addBlocks (strands : List Float) : List Float → List Float × List Float
  | a :: b :: c :: d :: e :: f :: g :: h :: rest =>
    addBlocks (strands.zipWith (· + ·) [a, b, c, d, e, f, g, h]) rest
  | rest => (strands, rest)

theorem length_addBlocks_lt (strands xs : List Float) :
    (addBlocks strands xs).2.length < blockLength := by
  fun_induction addBlocks strands xs with
  | case1 => assumption
  | case2 strands xs h =>
    match xs, h with
    | [], _ | [_], _ | [_, _], _ | [_, _, _], _ | [_, _, _, _], _ | [_, _, _, _, _], _
    | [_, _, _, _, _, _], _ | [_, _, _, _, _, _, _], _ => simp [blockLength]
    | a :: b :: c :: d :: e :: f :: g :: h :: rest, hne =>
      exact absurd rfl (hne a b c d e f g h rest)

/-- The sums of neighbours. -/
def pairSums : List Float → List Float
  | a :: b :: rest => (a + b) :: pairSums rest
  | rest => rest

/-- The sum of a few values: eight strands are added up pair by pair, and what is left is added to
them. -/
def blockSum (xs : List Float) : Float :=
  if xs.length < blockLength then addAll 0.0 xs
  else
    let (strands, rest) := addBlocks (xs.take blockLength) (xs.drop blockLength)
    addAll (addAll 0.0 (pairSums (pairSums (pairSums strands)))) rest

/-- The sum of all values. -/
def total (xs : List Float) : Float :=
  if xs.length ≤ 16 * blockLength then blockSum xs
  else
    let half := xs.length / 2 - xs.length / 2 % blockLength
    total (xs.take half) + total (xs.drop half)
termination_by xs.length
decreasing_by
  all_goals
    simp only [blockLength, List.length_take, List.length_drop] at *
    omega

/-- Whether a value is a number. -/
def isNumber (x : Float) : Bool := !x.isNaN

/-- The sum of the numbers, in which the others count as zero. -/
def sum (xs : List Float) : Float := total (xs.map fun x ↦ if isNumber x then x else 0.0)

/-! ### Means, maxima and the spread -/

/-- The mean of the numbers; no number, if there are none. -/
def mean (xs : List Float) : Float := sum xs / (xs.countP isNumber).toFloat

/-- The larger of two numbers. -/
def larger (x y : Float) : Float := if x < y then y else x

/-- The largest of the numbers; no number, if there are none. -/
def maximum (xs : List Float) : Float :=
  match xs.filter isNumber with
  | [] => 0.0 / 0.0
  | x :: rest => rest.foldl larger x

/-- The mean of all values. -/
def meanOfAll (xs : List Float) : Float := total xs / xs.length.toFloat

/-- The root of the mean square distance from the mean; zero for no values. -/
def deviation (xs : List Float) : Float :=
  match xs with
  | [] => 0.0
  | xs =>
    let center := meanOfAll xs
    (meanOfAll (xs.map fun x ↦ (x - center) * (x - center))).sqrt

/-- The differences between neighbours. -/
def differences (xs : List Float) : List Float :=
  xs.zipWith (fun x next ↦ next - x) (xs.drop 1)

end ConcentratedPool.Statistics
