import ConcentratedPool.Simulation.Basic

/-!
# Runs of a simulation

A run deposits the initial liquidity if the pool has none, takes a snapshot, and then goes along the
price path: at every step a `Strategy` may choose a trade, which the pool carries out or refuses.
`Simulation.runWith` takes any strategy, so that what holds of the books holds whatever is traded;
`Simulation.run` takes the simulation's own trader. A run that is repeated starts again at the
first price of the path, but keeps the pool, the clock and the records.
-/

set_option autoImplicit false
set_option relaxedAutoImplicit false

namespace ConcentratedPool

/-- Chooses a trade from a pool, its balances, the market price and the time. -/
abbrev Strategy : Type := Pool → List Int → Float → Int → Except Fault (Option ArbitrageTrade)

namespace Simulation

/-- The market price at a position of the path. -/
def priceAt (s : Simulation) (position : Nat) : Except Fault Float :=
  match s.path[position]? with
  | some price => .ok price
  | none => .error .missingEntry

/-- The first deposit: the initial liquidity, with as much of the other asset as it is worth at the
price at the start. -/
def seedDeposit (s : Simulation) : Except Fault (Pair Int) := do
  let price ← Decimal.ofText s.settings.initialPrice
  let value ← Decimal.ofInt s.settings.initialLiquidity
  let quote ← (← value / price).toTokens (s.ledger.pool.precision .quote)
  let unit := Nat.pow 10 (s.ledger.pool.precision .base).toNat
  return ⟨s.settings.initialLiquidity * unit, quote⟩

/-- The simulation after the first deposit, or the same one if there are shares already. -/
def seedLiquidity (s : Simulation) : Except Fault Simulation := do
  if s.ledger.supply ≠ 0 then return s
  let deposit ← s.seedDeposit
  let (receipt, ledger) ← s.ledger.deposit deposit.toList s.now
  return { s with ledger, initialDeposit := deposit, providerShare := receipt.minted }

/-- Adds a snapshot of the pool. -/
def record (s : Simulation) (step : Nat) (price : Float) (trade : Option TradeReceipt) :
    Except Fault Simulation := do
  let sharePrice ← s.ledger.pool.sharePrice
  let snapshot : Snapshot :=
    ⟨step, s.now, price, s.ledger.pool.state.price, sharePrice, s.ledger.balances, trade⟩
  return { s with snapshots := s.snapshots ++ [snapshot] }

/-- What the trader of a simulation accepts. -/
def terms (s : Simulation) : SwapTerms := ⟨none, some Limits.maxSlippage, some s.makerShare⟩

/-- Books a trade that the pool has carried out. -/
def book (s : Simulation) (trade : ArbitrageTrade) (receipt : TradeReceipt) (ledger : Ledger) :
    Simulation :=
  let side := trade.side.other
  { s with
    ledger
    makerFees := s.makerFees.set side (s.makerFees.get side + receipt.quote.makerFee)
    repegs := s.repegs + if receipt.moved then 1 else 0
    trades := s.trades + 1
    profit := s.profit + trade.profit }

/-- Carries out a trade. One that the pool refuses because of its spread is only counted. -/
def execute (s : Simulation) (trade : ArbitrageTrade) :
    Except Fault (Option TradeReceipt × Simulation) :=
  match s.ledger.swap (.index trade.side.index) trade.amount s.now s.terms with
  | .ok (receipt, ledger) => .ok (some receipt, s.book trade receipt ledger)
  | .error (.spread ..) => .ok (none, { s with failedTrades := s.failedTrades + 1 })
  | .error fault => .error fault

/-- Lets a strategy trade at a market price. -/
def trade (s : Simulation) (strategy : Strategy) (price : Float) :
    Except Fault (Option TradeReceipt × Simulation) := do
  match ← strategy s.ledger.pool s.ledger.balances price s.now with
  | none => return (none, s)
  | some trade => s.execute trade

/-- One step: time passes, the strategy may trade, and a snapshot is taken. -/
def advance (strategy : Strategy) (s : Simulation) (step : Nat) : Except Fault Simulation := do
  let price ← s.priceAt step
  let (trade, next) ← { s with now := s.now + s.settings.stepSeconds }.trade strategy price
  next.record step price trade

/-- The number of steps of a run: as many as are asked for, or as the settings say if none are, but
no more than the path has. -/
def stepCount (s : Simulation) (steps : Option Int) : Nat :=
  let wanted := match steps with
    | none | some 0 => s.settings.steps
    | some n => n
  (min wanted (s.path.length - 1 : Int)).toNat

/-- The simulation after a run in which a strategy trades. -/
def runWith (strategy : Strategy) (steps : Option Int) (s : Simulation) :
    Except Fault Simulation := do
  let seeded ← s.seedLiquidity
  let started ← seeded.record 0 (← seeded.priceAt 0) none
  (List.range' 1 (s.stepCount steps)).foldlM (advance strategy) started

end Simulation

end ConcentratedPool
