import ConcentratedPool.Proofs.ProfitGrowth
import ConcentratedPool.Simulation.Run
import Mathlib.Algebra.BigOperators.Group.List.Basic

/-!
# The books of a simulation

A simulation keeps balances, shares and counters beside the pool that it trades with. They agree
with the trades that it has carried out (`Simulation.Books`), and the snapshots agree with the clock
and the pool (`Simulation.Recorded`). The first deposit opens the books (`Simulation.books_seed`), a
trade of any strategy is posted to them whether the pool carries it out, refuses it or there is none
(`Simulation.books_trade`), and a snapshot adds to the record (`Simulation.running_record`). So both
hold after every step of every run (`Simulation.running_after`), which `Simulation.books_of_runWith`
says of a run from a new simulation, along any price path.
-/

set_option autoImplicit false
set_option relaxedAutoImplicit false

namespace ConcentratedPool

/-! ### Sums over trades -/

namespace TradeReceipt

/-- What trades have brought in of the asset on a side. -/
def totalOffered (receipts : List TradeReceipt) (side : Side) : ℤ :=
  (receipts.map fun r ↦ if r.side = side then r.amount else 0).sum

/-- What trades have paid to the trader of the asset on a side. -/
def totalPaid (receipts : List TradeReceipt) (side : Side) : ℤ :=
  (receipts.map fun r ↦ if r.side = side.other then (r.quote.output : ℤ) else 0).sum

theorem totalOffered_concat (receipts : List TradeReceipt) (r : TradeReceipt) (side : Side) :
    totalOffered (receipts ++ [r]) side =
      totalOffered receipts side + if r.side = side then r.amount else 0 := by
  simp [totalOffered]

theorem totalPaid_concat (receipts : List TradeReceipt) (r : TradeReceipt) (side : Side) :
    totalPaid (receipts ++ [r]) side =
      totalPaid receipts side + if r.side = side.other then (r.quote.output : ℤ) else 0 := by
  simp [totalPaid]

end TradeReceipt

open TradeReceipt

/-- The balance on a side after a swap. -/
theorem Ledger.get_afterSwap (pair : Pair ℤ) (r : TradeReceipt) (side : Side) :
    (afterSwap pair r).get side = pair.get side + (if r.side = side then r.amount else 0) -
      if r.side = side.other then (r.quote.output : ℤ) + r.quote.makerFee else 0 := by
  unfold afterSwap
  cases r.side <;> cases side <;> simp [Pair.set, Pair.get, Side.other]

/-- An offer by the position of a side is one on that side. -/
theorem Pool.side_index (p : Pool) (side : Side) : p.side (.index side.index) = .ok side := by
  cases side <;> rfl

namespace Simulation

variable {s next : Simulation} {setup : Setup} {posted : List TradeReceipt}
variable {trade : Option TradeReceipt} {strategy : Strategy} {price : Float} {k : ℕ}

/-! ### What the parts of a run do -/

/-- The trades in the snapshots. -/
def receipts (s : Simulation) : List TradeReceipt := s.snapshots.filterMap Snapshot.trade

/-- The first deposit is booked with the amounts that it takes and the shares that it mints. -/
theorem exists_of_seedLiquidity (hsupply : s.ledger.supply = 0)
    (h : s.seedLiquidity = .ok next) :
    ∃ (deposit : Pair ℤ) (receipt : DepositReceipt) (ledger : Ledger),
      s.ledger.deposit deposit.toList s.now = .ok (receipt, ledger) ∧
      next = { s with ledger, initialDeposit := deposit, providerShare := receipt.minted } := by
  unfold seedLiquidity at h
  rcases branch_eq_ok.mp h with ⟨hsome, -⟩ | ⟨-, h⟩
  · exact absurd hsupply hsome
  · simp only [bind_eq_ok, pure_eq_ok, Prod.exists] at h
    obtain ⟨deposit, -, receipt, ledger, hdeposit, rfl⟩ := h
    exact ⟨deposit, receipt, ledger, hdeposit, rfl⟩

/-- What letting a strategy trade comes to. -/
inductive TradeEnds (s : Simulation) : Option TradeReceipt → Simulation → Prop
  /-- There is no trade, or the pool refuses it because of its spread. -/
  | kept (failedTrades : ℕ) : TradeEnds s none { s with failedTrades }
  /-- The pool carries the trade out. -/
  | traded {trade : ArbitrageTrade} {receipt : TradeReceipt} {ledger : Ledger}
      (hswap : s.ledger.swap (.index trade.side.index) trade.amount s.now s.terms =
        .ok (receipt, ledger)) :
      TradeEnds s (some receipt) (s.book trade receipt ledger)

theorem tradeEnds_of_trade (h : s.trade strategy price = .ok (trade, next)) :
    TradeEnds s trade next := by
  simp only [Simulation.trade, bind_eq_ok] at h
  obtain ⟨choice, -, h⟩ := h
  cases choice with
  | none =>
    simp only [pure_eq_ok, Prod.mk.injEq] at h
    obtain ⟨rfl, rfl⟩ := h
    exact .kept s.failedTrades
  | some choice =>
    simp only [execute] at h
    split at h
    next receipt ledger hswap =>
      simp only [Except.ok.injEq, Prod.mk.injEq] at h
      obtain ⟨rfl, rfl⟩ := h
      exact .traded hswap
    next =>
      simp only [Except.ok.injEq, Prod.mk.injEq] at h
      obtain ⟨rfl, rfl⟩ := h
      exact .kept _
    next => cases h

/-- A snapshot shows the clock and the pool as they are, with the value of a share. -/
theorem record_eq_ok {step : ℕ} :
    s.record step price trade = .ok next ↔ ∃ sharePrice, s.ledger.pool.sharePrice = .ok sharePrice ∧
      next = { s with snapshots := s.snapshots ++
        [⟨step, s.now, price, s.ledger.pool.state.price, sharePrice, s.ledger.balances, trade⟩] } := by
  simp only [record, bind_eq_ok, pure_eq_ok, eq_comm (a := next)]

/-- A snapshot is taken of the clock and the pool as they are. -/
theorem exists_of_record {step : ℕ} (h : s.record step price trade = .ok next) :
    ∃ x : Snapshot, x.step = step ∧ x.time = s.now ∧ x.price = s.ledger.pool.state.price ∧
      x.trade = trade ∧ next = { s with snapshots := s.snapshots ++ [x] } := by
  obtain ⟨_, -, rfl⟩ := record_eq_ok.mp h
  exact ⟨_, rfl, rfl, rfl, rfl, rfl⟩

/-- A price is there where the path has one. -/
theorem priceAt_eq_ok : s.priceAt k = .ok price ↔ s.path[k]? = some price := by
  unfold priceAt
  cases s.path[k]? <;> simp

/-- A step takes the price at its position, trades after its time has come, and ends with a
snapshot. -/
theorem advance_eq_ok :
    advance strategy s k = .ok next ↔ ∃ price trade middle, s.path[k]? = some price ∧
      { s with now := s.now + s.settings.stepSeconds }.trade strategy price =
        .ok (trade, middle) ∧ middle.record k price trade = .ok next := by
  simp only [advance, bind_eq_ok, priceAt_eq_ok, Prod.exists]
  constructor
  · rintro ⟨price, hprice, trade, middle, htrade, hrecord⟩
    exact ⟨price, trade, middle, hprice, htrade, hrecord⟩
  · rintro ⟨price, trade, middle, hprice, htrade, hrecord⟩
    exact ⟨price, hprice, trade, middle, htrade, hrecord⟩

/-! ### The books -/

/-- The books of a simulation agree with trades. -/
structure Books (s : Simulation) (posted : List TradeReceipt) : Prop where
  /-- Of each asset there is something, and what was deposited and offered is what there is, what
  was paid and what the maker took. -/
  balances : ∃ pair : Pair ℤ, s.ledger.balances = pair.toList ∧ ∀ side, 1 ≤ pair.get side ∧
    s.initialDeposit.get side + totalOffered posted side =
      pair.get side + totalPaid posted side + s.makerFees.get side
  /-- All shares are the provider's, but for those that are locked. -/
  shares : s.ledger.supply = s.providerShare + Limits.lockedShares
  trades : s.trades = posted.length
  repegs : s.repegs = posted.countP TradeReceipt.moved

/-- The books do not depend on the time. -/
theorem Books.at_time (hs : s.Books posted) (now : ℤ) : { s with now }.Books posted :=
  ⟨hs.balances, hs.shares, hs.trades, hs.repegs⟩

/-- A simulation in which nothing has happened. -/
structure Fresh (s : Simulation) : Prop where
  ledger : s.ledger.WellFormed
  balances : s.ledger.balances = [0, 0]
  supply : s.ledger.supply = 0
  makerFees : s.makerFees = ⟨0, 0⟩
  trades : s.trades = 0
  repegs : s.repegs = 0
  snapshots : s.snapshots = []

/-- A new simulation is one in which nothing has happened, at the time and with the settings of its
set-up. -/
theorem fresh_of_create {source : NormalSource} (h : create setup source = .ok s) :
    s.Fresh ∧ s.now = setup.start ∧ s.settings = setup.settings := by
  simp only [create, bind_eq_ok, pure_eq_ok] at h
  obtain ⟨_, -, pool, hpool, _, -, _, -, _, -, rfl⟩ := h
  exact ⟨⟨Ledger.wellFormed_ofPool hpool, rfl, rfl, rfl, rfl, rfl, rfl⟩, rfl, rfl⟩

/-- The first deposit opens the books. -/
theorem books_seed (hs : s.Fresh) (h : s.seedLiquidity = .ok next) :
    next.Books [] ∧ next.ledger.WellFormed ∧ next.snapshots = [] ∧ next.now = s.now ∧
      next.settings = s.settings := by
  obtain ⟨deposit, receipt, ledger, hdeposit, rfl⟩ := exists_of_seedLiquidity hs.supply h
  have hwell : ledger.WellFormed := Ledger.wellFormed_deposit hs.ledger hdeposit
  obtain ⟨pool, trace, hends, rfl⟩ := Ledger.exists_of_deposit hdeposit
  obtain ⟨pair, hpair, hpos⟩ := trace.exists_amounts
  obtain rfl : deposit = pair := Pair.toList_inj.mp hpair
  have hlocked := (hends.of_first (trace.isFirst_iff.mpr hs.supply)).1
  refine ⟨⟨⟨deposit, ?_, fun side ↦ ⟨hpos side, ?_⟩⟩, ?_, hs.trades, hs.repegs⟩, hwell,
    hs.snapshots, rfl, rfl⟩
  · simp [hs.balances, Pair.toList]
  · rw [hs.makerFees]
    cases side <;> simp [totalOffered, totalPaid, Pair.get]
  · simp [hs.supply, hlocked]

/-- The maker's fee of a trade is booked on the side that it is paid in. -/
theorem get_makerFees_book (s : Simulation) (trade : ArbitrageTrade) (receipt : TradeReceipt)
    (ledger : Ledger) (side : Side) :
    (((s.book trade receipt ledger).makerFees.get side : ℕ) : ℤ) =
      s.makerFees.get side +
        if trade.side = side.other then (receipt.quote.makerFee : ℤ) else 0 := by
  unfold book
  cases trade.side <;> cases side <;> simp [Pair.set, Pair.get, Side.other]

/-- A trade is posted to the books. -/
theorem books_trade (hs : s.Books posted) (hl : s.ledger.WellFormed) (h : TradeEnds s trade next) :
    next.Books (posted ++ trade.toList) := by
  cases h with
  | kept failedTrades =>
    rw [Option.toList_none, List.append_nil]
    exact ⟨hs.balances, hs.shares, hs.trades, hs.repegs⟩
  | @traded trade receipt ledger hswap =>
    have hwell : ledger.WellFormed := Ledger.wellFormed_swap hl hswap
    obtain ⟨pool, pair, ⟨trace⟩, hpair, hpos, -, rfl⟩ := Ledger.exists_of_swap hswap
    obtain ⟨found, hfound, hbooks⟩ := hs.balances
    obtain rfl : pair = found := Pair.toList_inj.mp (hpair.symm.trans hfound)
    have hside : trade.side = receipt.side := by
      have hindex := trace.hside
      rwa [Pool.side_index, Except.ok.injEq] at hindex
    obtain ⟨after, hafter, hone⟩ :=
      (hwell.funded_of_supply (hl.funded_of_balance hpair (hpos .base)).supply).balances
    obtain rfl : Ledger.afterSwap pair receipt = after := Pair.toList_inj.mp hafter
    rw [Option.toList_some]
    refine ⟨⟨_, rfl, fun side ↦ ⟨hone side, ?_⟩⟩, hs.shares, ?_, ?_⟩
    · have hbefore := (hbooks side).2
      rw [get_makerFees_book, hside, Ledger.get_afterSwap, totalOffered_concat, totalPaid_concat]
      change s.initialDeposit.get side + _ = _
      split_ifs <;> omega
    · simp [book, hs.trades]
    · simp [book, hs.repegs]

/-- What a trade leaves alone, beside the books: the ledger stays well-formed, and its profit does
not fall. -/
theorem TradeEnds.frame (h : TradeEnds s trade next) (hl : s.ledger.WellFormed) :
    next.ledger.WellFormed ∧ s.ledger.profit ≤ next.ledger.profit ∧
      next.snapshots = s.snapshots ∧ next.now = s.now ∧ next.settings = s.settings := by
  cases h with
  | kept failedTrades => exact ⟨hl, Nat.le_refl _, rfl, rfl, rfl⟩
  | @traded _ receipt ledger hswap =>
    refine ⟨Ledger.wellFormed_swap hl hswap, ?_, rfl, rfl, rfl⟩
    obtain ⟨pool, pair, ⟨trace⟩, -, -, -, rfl⟩ := Ledger.exists_of_swap hswap
    exact trace.advances.profit

/-! ### The snapshots -/

/-- There are `n` snapshots, numbered in order, at equal intervals from the start, and the profit
never falls from one to the next. -/
structure Recorded (s : Simulation) (setup : Setup) (n : ℕ) : Prop where
  steps : s.snapshots.map Snapshot.step = List.range n
  times : s.snapshots.map Snapshot.time =
    (List.range n).map fun i : ℕ ↦ setup.start + i * setup.settings.stepSeconds
  profits : (s.snapshots.map fun x ↦ x.price.profit).Pairwise (· ≤ ·)

/-- What holds throughout step `k`, beside the books. -/
structure InStep (s : Simulation) (setup : Setup) (k : ℕ) : Prop where
  ledger : s.ledger.WellFormed
  clock : s.now = setup.start + k * setup.settings.stepSeconds
  settings : s.settings = setup.settings
  /-- No snapshot shows more profit than there is now. -/
  latest : ∀ x ∈ s.snapshots, x.price.profit ≤ s.ledger.profit

/-- What holds before the snapshot of step `k`: its trade is posted. -/
structure Posted (s : Simulation) (setup : Setup) (k : ℕ) (trade : Option TradeReceipt) : Prop
    extends InStep s setup k where
  books : s.Books (s.receipts ++ trade.toList)
  recorded : s.Recorded setup k

/-- What holds after the snapshot of step `k`. -/
structure Running (s : Simulation) (setup : Setup) (k : ℕ) : Prop extends InStep s setup k where
  books : s.Books s.receipts
  recorded : s.Recorded setup (k + 1)

/-- The snapshot completes a step. -/
theorem running_record (hs : s.Posted setup k trade) (h : s.record k price trade = .ok next) :
    next.Running setup k := by
  obtain ⟨x, hstep, htime, hprice, htrade, rfl⟩ := exists_of_record h
  have hprofit : x.price.profit = s.ledger.profit := by rw [hprice, Ledger.profit]
  have hreceipts : (s.snapshots ++ [x]).filterMap Snapshot.trade = s.receipts ++ trade.toList := by
    rw [List.filterMap_append, receipts, ← htrade]
    cases htraded : x.trade <;> simp [htraded]
  refine ⟨⟨hs.ledger, hs.clock, hs.settings, ?_⟩, ?_, ⟨?_, ?_, ?_⟩⟩
  · intro y hy
    rcases List.mem_append.mp hy with hold | hnew
    · exact hs.latest y hold
    · rw [List.mem_singleton.mp hnew, hprofit]
      exact Nat.le_refl _
  · rw [receipts, hreceipts]
    exact ⟨hs.books.balances, hs.books.shares, hs.books.trades, hs.books.repegs⟩
  · simp [hs.recorded.steps, List.range_succ, hstep]
  · simp [hs.recorded.times, List.range_succ, htime, hs.clock]
  · rw [List.map_append, List.pairwise_append]
    refine ⟨hs.recorded.profits, List.pairwise_singleton _ _, fun before hbefore after hafter ↦ ?_⟩
    obtain ⟨y, hy, rfl⟩ := List.mem_map.mp hbefore
    rw [List.map_singleton, List.mem_singleton] at hafter
    rw [hafter, hprofit]
    exact hs.latest y hy

/-! ### Steps and runs -/

/-- The first deposit is all that there is before the first snapshot. -/
theorem posted_seed (hs : s.Fresh) (hnow : s.now = setup.start)
    (hsettings : s.settings = setup.settings) (h : s.seedLiquidity = .ok next) :
    next.Posted setup 0 none := by
  obtain ⟨hbooks, hledger, hsnapshots, hclock, hkept⟩ := books_seed hs h
  have hreceipts : next.receipts = [] := by rw [receipts, hsnapshots, List.filterMap_nil]
  refine ⟨⟨hledger, ?_, hkept.trans hsettings, ?_⟩, ?_, ⟨?_, ?_, ?_⟩⟩
  · rw [hclock, hnow, Nat.cast_zero, zero_mul, add_zero]
  · rw [hsnapshots]
    exact fun x hx ↦ absurd hx List.not_mem_nil
  · rw [hreceipts]
    exact hbooks
  · rw [hsnapshots]
    rfl
  · rw [hsnapshots]
    rfl
  · rw [hsnapshots]
    exact List.Pairwise.nil

/-- The trade of a step is posted, after its time has come. -/
theorem posted_trade (hs : s.Running setup k)
    (h : TradeEnds { s with now := s.now + s.settings.stepSeconds } trade next) :
    next.Posted setup (k + 1) trade := by
  obtain ⟨hledger, hprofit, hsnapshots, hnow, hsettings⟩ := h.frame hs.ledger
  have hbooks : next.Books (s.receipts ++ trade.toList) :=
    books_trade (hs.books.at_time (s.now + s.settings.stepSeconds)) hs.ledger h
  refine ⟨⟨hledger, ?_, hsettings.trans hs.settings, ?_⟩, ?_, ⟨?_, ?_, ?_⟩⟩
  · rw [hnow, hs.clock, hs.settings]
    push_cast
    ring
  · rw [hsnapshots]
    exact fun x hx ↦ Nat.le_trans (hs.latest x hx) hprofit
  · rw [receipts, hsnapshots]
    exact hbooks
  · rw [hsnapshots]
    exact hs.recorded.steps
  · rw [hsnapshots]
    exact hs.recorded.times
  · rw [hsnapshots]
    exact hs.recorded.profits

/-- One step keeps the books and the record. -/
theorem running_advance (hs : s.Running setup k) (h : advance strategy s (k + 1) = .ok next) :
    next.Running setup (k + 1) := by
  obtain ⟨price, trade, middle, -, htrade, hrecord⟩ := advance_eq_ok.mp h
  exact running_record (posted_trade hs (tradeEnds_of_trade htrade)) hrecord

/-- The simulation after the first deposit and the first snapshot. -/
def started (s : Simulation) : Except Fault Simulation := do
  let seeded ← s.seedLiquidity
  seeded.record 0 (← seeded.priceAt 0) none

/-- The simulation after `k` steps of a run in which a strategy trades. -/
def after (strategy : Strategy) (k : ℕ) (s : Simulation) : Except Fault Simulation := do
  (List.range' 1 k).foldlM (advance strategy) (← s.started)

/-- A run is as many steps as are counted for it. -/
theorem runWith_eq_after (strategy : Strategy) (steps : Option ℤ) (s : Simulation) :
    s.runWith strategy steps = s.after strategy (s.stepCount steps) := by
  simp only [runWith, after, started, bind_assoc]

/-- A run starts with the first deposit and a snapshot at the first price. -/
theorem after_zero_eq_ok :
    s.after strategy 0 = .ok next ↔ ∃ seeded price, s.seedLiquidity = .ok seeded ∧
      seeded.path[0]? = some price ∧ seeded.record 0 price none = .ok next := by
  simp only [after, started, List.range'_zero, List.foldlM_nil, bind_eq_ok, pure_eq_ok,
    priceAt_eq_ok, exists_eq_right]
  constructor
  · rintro ⟨seeded, hseeded, price, hprice, hrecord⟩
    exact ⟨seeded, price, hseeded, hprice, hrecord⟩
  · rintro ⟨seeded, price, hseeded, hprice, hrecord⟩
    exact ⟨seeded, hseeded, price, hprice, hrecord⟩

/-- One step more is that step from where the steps before have come. -/
theorem after_succ_eq_ok :
    s.after strategy (k + 1) = .ok next ↔
      ∃ middle, s.after strategy k = .ok middle ∧ advance strategy middle (k + 1) = .ok next := by
  simp only [after, List.range'_1_concat, List.foldlM_append, List.foldlM_cons, List.foldlM_nil,
    bind_eq_ok, pure_eq_ok, Nat.add_comm 1 k]
  constructor
  · rintro ⟨first, hfirst, middle, hmiddle, _, hadvance, rfl⟩
    exact ⟨middle, ⟨first, hfirst, hmiddle⟩, hadvance⟩
  · rintro ⟨middle, ⟨first, hfirst, hmiddle⟩, hadvance⟩
    exact ⟨first, hfirst, middle, hmiddle, next, hadvance, rfl⟩

/-- A run that comes to its end has come through all its steps. -/
theorem exists_after_of_le {n : ℕ} (hk : k ≤ n) (h : s.after strategy n = .ok next) :
    ∃ middle, s.after strategy k = .ok middle := by
  induction hk generalizing next with
  | refl => exact ⟨next, h⟩
  | step _ ih =>
    obtain ⟨middle, hmiddle, -⟩ := after_succ_eq_ok.mp h
    exact ih hmiddle

/-- The books and the record hold from the first snapshot of a run from a new simulation on. -/
theorem running_after (hs : s.Fresh) (hnow : s.now = setup.start)
    (hsettings : s.settings = setup.settings) (h : s.after strategy k = .ok next) :
    next.Running setup k := by
  induction k generalizing next with
  | zero =>
    obtain ⟨seeded, price, hseeded, -, hrecord⟩ := after_zero_eq_ok.mp h
    exact running_record (posted_seed hs hnow hsettings hseeded) hrecord
  | succ k ih =>
    obtain ⟨middle, hmiddle, hadvance⟩ := after_succ_eq_ok.mp h
    exact running_advance (ih hmiddle) hadvance

/-- The number of steps that are counted for a run. -/
theorem natCast_stepCount (s : Simulation) (steps : Option ℤ) :
    (s.stepCount steps : ℤ) =
      max 0 (min ((steps.filter (· ≠ 0)).getD s.settings.steps) (s.path.length - 1)) := by
  unfold stepCount
  rw [Int.ofNat_toNat, max_comm]
  rcases steps with _ | n
  · rfl
  · by_cases hn : n = 0
    · subst hn
      rfl
    · simp [hn, Option.filter]

/-- The market of the settings has one price more than they have steps, with a shock or without. -/
theorem length_marketPath {settings : Settings} {source : NormalSource} {path : List Float}
    (h : marketPath settings source = .ok path) :
    0 ≤ settings.steps ∧ (path.length : ℤ) = settings.steps + 1 := by
  simp only [marketPath, bind_eq_ok] at h
  obtain ⟨initial, -, walked, hwalked, hshocked⟩ := h
  have hlength := PricePath.length_generate hwalked
  split_ifs at hshocked
  · rwa [← pure_eq_ok.mp hshocked]
  · rwa [← pure_eq_ok.mp hshocked, PricePath.length_applyShock]

/-- Along its own path, a new simulation runs for as many steps as its settings say. -/
theorem stepCount_of_create {source : NormalSource} (h : create setup source = .ok s) :
    (s.stepCount none : ℤ) = setup.settings.steps := by
  have hsettings := (fresh_of_create h).2.2
  simp only [create, bind_eq_ok, pure_eq_ok] at h
  obtain ⟨_, -, _, -, _, -, _, -, path, hpath, rfl⟩ := h
  obtain ⟨hsteps, hlength⟩ := length_marketPath hpath
  rw [natCast_stepCount, hsettings]
  simp only [Option.filter_none, Option.getD_none, hlength]
  rw [add_sub_cancel_right, min_self, max_eq_right hsteps]

/-- The books of a simulation balance. Let a new simulation go along any price path with any
strategy, and let the run come to its end. It takes as many steps as are asked for, or as the
settings say where none are, but no more than the path has. After each of them, and so at the end,
each asset is conserved and neither balance is empty, all shares are the provider's but for those
that are locked, the counters of trades and repegs agree with the snapshots, and these are numbered
in order, at equal intervals, with a profit that never falls. -/
theorem books_of_runWith {source : NormalSource} (hcreate : create setup source = .ok s)
    (path : List Float) {steps : Option ℤ}
    (h : { s with path }.runWith strategy steps = .ok next) :
    ∃ n : ℕ, (n : ℤ) =
        max 0 (min ((steps.filter (· ≠ 0)).getD setup.settings.steps) (path.length - 1)) ∧
      next.Books next.receipts ∧ next.Recorded setup (n + 1) ∧
      ∀ k ≤ n, ∃ middle, { s with path }.after strategy k = .ok middle ∧
        middle.Books middle.receipts ∧ middle.Recorded setup (k + 1) := by
  obtain ⟨hs, hnow, hsettings⟩ := fresh_of_create hcreate
  have hfresh : { s with path }.Fresh :=
    ⟨hs.ledger, hs.balances, hs.supply, hs.makerFees, hs.trades, hs.repegs, hs.snapshots⟩
  rw [runWith_eq_after] at h
  have hend := running_after hfresh hnow hsettings h
  refine ⟨_, ?_, hend.books, hend.recorded, fun k hk ↦ ?_⟩
  · rw [natCast_stepCount, hsettings]
  · obtain ⟨middle, hmiddle⟩ := exists_after_of_le hk h
    have hrunning := running_after hfresh hnow hsettings hmiddle
    exact ⟨middle, hmiddle, hrunning.books, hrunning.recorded⟩

/-- A market that does not move, and a first deposit of a thousand units. -/
def stillSettings : Settings := ⟨3, 600, "1", 0.0, 0.0, 1000, some 7, "0", 0.0, none⟩

/-- The prices at the start and at three steps. -/
def calmPath : List Float := [1.0, 1.01, 0.99, 1.0]

/-- Offers ten base units at the first step, five quote units at the second, and at the third ten
times the balance, which no pool gives a fair price for. -/
def threeOffers : Strategy := fun _ _ _ now ↦
  .ok (some (if now = 1700000600 then ⟨.base, 10_000_000, 0, 0.0⟩
    else if now = 1700001200 then ⟨.quote, 5_000_000, 0, 0.0⟩
    else ⟨.base, 10_000_000_000, 0, 0.0⟩))

/-- A run with a trade in either direction and one that the pool refuses. -/
theorem books_of_runWith_threeOffers :
    ∃ s next, create (.ofSettings stillSettings) 0 = .ok s ∧
      { s with path := calmPath }.runWith threeOffers none = .ok next ∧
      next.trades = 2 ∧ next.failedTrades = 1 ∧ next.Books next.receipts ∧
      next.snapshots.map Snapshot.step = [0, 1, 2, 3] := by
  obtain ⟨⟨s, next⟩, hresult, hcounts⟩ := exists_of_any
    (do let s ← create (.ofSettings stillSettings) 0
        return (s, ← { s with path := calmPath }.runWith threeOffers none))
    (fun result ↦ result.2.trades = 2 ∧ result.2.failedTrades = 1) (by decide +kernel)
  simp only [bind_eq_ok, pure_eq_ok, Prod.mk.injEq] at hresult
  obtain ⟨s, hcreate, next, hrun, rfl, rfl⟩ := hresult
  obtain ⟨htrades, hfailed⟩ := of_decide_eq_true hcounts
  obtain ⟨n, hn, hbooks, hrecorded, -⟩ := books_of_runWith hcreate calmPath hrun
  obtain rfl : n = 3 := Int.natCast_inj.mp hn
  exact ⟨s, next, hcreate, hrun, htrades, hfailed, hbooks, hrecorded.steps⟩

end Simulation

end ConcentratedPool
