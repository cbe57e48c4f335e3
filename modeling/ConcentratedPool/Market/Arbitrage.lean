import ConcentratedPool.Market.Valuation
import ConcentratedPool.Pool.Trade

/-!
# Arbitrage

An `Arbitrageur` trades a pool toward the market price: for each side it looks for the offer that
earns the most at that price, in base units after fees, and takes the better side if it earns
enough. The search first probes each side with a millionth of its balance and then narrows a range
of amounts around the maximum by golden sections.
-/

set_option autoImplicit false
set_option relaxedAutoImplicit false

namespace ConcentratedPool

/-- A trade that earns something at the market price. -/
structure ArbitrageTrade where
  side : Side
  amount : Int
  /-- The output that the pool quotes, in token units of the other side. -/
  output : Nat
  /-- The earnings in base units. -/
  profit : Float

/-- What a trader looks for. -/
structure Arbitrageur where
  /-- Earnings up to this are not worth a trade. -/
  minProfit : Float
  /-- The part of a balance that one trade offers at the most. -/
  maxFraction : Float
  /-- How often the range of amounts is narrowed. -/
  searchSteps : Nat

namespace Market

/-- A quoted output and what it would earn. -/
structure Earnings where
  profit : Float
  output : Nat

/-- What a trade of `amount` tokens earns in base units at a market price in base per quote. There
is nothing to earn without an amount, or where the pool refuses. -/
def earnings (pool : Pool) (balances : List Int) (price : Float) (now : Int) (side : Side)
    (amount : Int) : Except Fault (Option Earnings) :=
  if amount ≤ 0 then .ok none
  else
    match pool.quote balances (.index side.index) amount now none with
    | .error fault => if fault.isRejection then .ok none else .error fault
    | .ok quote => do
      let received ← wholeTokens quote.output (pool.precision side.other)
      let paid ← wholeTokens amount (pool.precision side)
      let profit := match side with
        | .base => received * price - paid
        | .quote => received - paid * price
      return some ⟨profit, quote.output⟩

/-- The part of a range that a golden section keeps. -/
def goldenSection : Float := 0.6180339887498949

/-- The profit of an amount, below all others if there is nothing to earn. -/
def profitOrLoss (e : Option Earnings) : Float :=
  match e with
  | some e => e.profit
  | none => -1.0 / 0.0

/-- Narrows a range of amounts around the most profitable one, at most `steps` times and until it is
less than one wide. -/
def narrow (earn : Int → Except Fault (Option Earnings)) :
    Nat → Float → Float → Except Fault (Float × Float)
  | 0, low, high => .ok (low, high)
  | steps + 1, low, high =>
    if high - low < 1.0 then .ok (low, high)
    else do
      let left := high - (high - low) * goldenSection
      let right := low + (high - low) * goldenSection
      let atLeft ← earn (← wholePart left)
      let atRight ← earn (← wholePart right)
      if profitOrLoss atLeft < profitOrLoss atRight then narrow earn steps left high
      else narrow earn steps low right

end Market

namespace Arbitrageur

open Market

/-- The best amount to offer on one side, if even a small offer earns something. -/
def bestAmount? (a : Arbitrageur) (earn : Int → Except Fault (Option Earnings)) (balance : Int) :
    Except Fault (Option Int) := do
  let probe := max 1 (balance / 1000000)
  match ← earn probe with
  | none => return none
  | some atProbe =>
    if atProbe.profit ≤ 0.0 then return none
    let high := (← floatOfInt balance) * a.maxFraction
    let (low, high) ← narrow earn a.searchSteps (← floatOfInt probe) high
    return some (← wholePart ((low + high) / 2.0))

/-- The best trade on one side. -/
def bestOn (a : Arbitrageur) (pool : Pool) (balances : List Int) (price : Float) (now : Int)
    (side : Side) : Except Fault (Option ArbitrageTrade) := do
  match balances[side.index]? with
  | none => throw .missingEntry
  | some balance =>
    let earn := earnings pool balances price now side
    match ← a.bestAmount? earn balance with
    | none => return none
    | some amount =>
      match ← earn amount with
      | none => return none
      | some e =>
        if e.profit ≤ a.minProfit then return none
        return some ⟨side, amount, e.output, e.profit⟩

/-- The better of two trades; the first one if neither is. -/
def better : Option ArbitrageTrade → Option ArbitrageTrade → Option ArbitrageTrade
  | none, second => second
  | first, none => first
  | some first, some second => some (if first.profit < second.profit then second else first)

/-- The best trade with a pool at a market price. -/
def findTrade (a : Arbitrageur) (pool : Pool) (balances : List Int) (price : Float) (now : Int) :
    Except Fault (Option ArbitrageTrade) := do
  let first ← a.bestOn pool balances price now .base
  let second ← a.bestOn pool balances price now .quote
  return better first second

end Arbitrageur

end ConcentratedPool
