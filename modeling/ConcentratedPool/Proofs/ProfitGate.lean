import ConcentratedPool.Proofs.LedgerSolvency

/-!
# The profit gate

A price update that moves the price scale has measured a virtual price at the old scale and stores
another one at the new scale. The gate compares the two through the profit, in quantities that are
rounded down; the statements here compare the exact raw values (`PoolState.gate_of_updatePrice`).

Where there is no profit the gate says nothing, so the operations of a pool need the invariant of
ledgers: a well-formed ledger that trades has a profit of at least one. `Pool.measureSwap` and
`Pool.measureDeposit` are the virtual prices that a swap and a deposit measure at the old scale, and
no operation that moves the scale stores a smaller one (`Ledger.measured_le_of_swap`,
`Ledger.measured_le_of_deposit`).
-/

set_option autoImplicit false
set_option relaxedAutoImplicit false

namespace ConcentratedPool

/-- A price update that moves the scale of a pool with profit measured a virtual price at the old
scale; the virtual price that it stores is no smaller, and clears the profit gate over it. -/
theorem PoolState.gate_of_updatePrice {s t : PoolState} {params : PoolParams} {now : ℤ}
    {supply last : Decimal} {xs : List Decimal} (hprofit : 0 < s.price.profit.raw)
    (h : s.updatePrice params now supply xs last = (t, .ok true)) :
    ∃ measured,
      virtualPriceAt (s.promotion.effective now) s.price.scale supply xs = .ok measured ∧
      measured ≤ t.price.virtualPrice ∧
      measured.raw *
          (t.price.profit.raw * (Decimal.scale + params.repegThreshold.raw) / Decimal.scale) ≤
        t.price.virtualPrice.raw * t.price.profit.raw := by
  have hupdate := update_of_updatePrice h
  obtain ⟨measured, hmeasured, hgate⟩ := PriceState.exists_virtualPrice_of_moved hupdate
  have hgrown : 0 < t.price.profit.raw :=
    lt_of_lt_of_le hprofit (PriceState.profit_le_of_update hupdate)
  exact ⟨measured, hmeasured, PriceState.virtualPrice_le_of_cleared hgrown hgate, hgate⟩

namespace Pool

/-! ### The virtual prices that operations measure -/

/-- The virtual price, at the price scale before a swap, of the balances that the swap leaves. -/
def measureSwap (p : Pool) (balances : List ℤ) (offer : Offer) (amount supply now : ℤ)
    (terms : SwapTerms) : Except Fault Decimal := do
  let side ← p.side offer
  let (pools, dec) ← p.liftOffer balances side amount
  let q ← quoteSwap p.state p.params pools dec side.other now (terms.makerShare.getD .zero)
  let xs ← scaledBalances p.state.price.scale (← balancesAfter pools side dec q)
  virtualPriceAt (p.state.promotion.effective now) p.state.price.scale (← liftShares supply)
    xs.toList

/-- The virtual price, at the price scale before a deposit, of the balances and the shares that the
deposit leaves. -/
def measureDeposit (p : Pool) (balances amounts : List ℤ) (supply now : ℤ) :
    Except Fault Decimal := do
  let pools ← p.lift balances
  let deposits ← p.lift amounts
  let supply ← liftShares supply
  let q ← quoteDeposit p.state p.params pools deposits supply now
  let minted ← q.share.toTokens Limits.sharePrecision
  virtualPriceAt (p.state.promotion.effective now) p.state.price.scale
    (← supply + (← liftShares minted)) q.balances.toList

variable {p next : Pool} {balances : List ℤ} {supply now : ℤ}

/-- A swap that moves the scale stores no smaller virtual price than it measured. -/
theorem SwapTrace.measured_le {offer : Offer} {amount : ℤ} {terms : SwapTerms}
    {receipt : TradeReceipt}
    (trace : SwapTrace p balances offer amount supply now terms receipt next)
    (hprofit : 0 < p.state.price.profit.raw) (hmoved : receipt.moved = true) :
    ∃ measured, p.measureSwap balances offer amount supply now terms = .ok measured ∧
      measured ≤ next.state.price.virtualPrice := by
  have hupdate : p.state.updatePrice p.params now trace.shares trace.xs.toList receipt.lastPrice =
      ({ p.state with price := trace.price }, .ok true) := by
    rw [PoolState.updatePrice, trace.hupdate, hmoved]
  obtain ⟨measured, hmeasured, hle, -⟩ := PoolState.gate_of_updatePrice hprofit hupdate
  refine ⟨measured, ?_, ?_⟩
  · simp only [measureSwap, bind_eq_ok]
    exact ⟨_, trace.hside, _, trace.hlift, _, trace.hquote, _, trace.hafter, _, trace.hscaled, _,
      trace.hshares, hmeasured⟩
  · rw [(advances_accumulate trace.haccumulate).2]
    exact hle

/-- A deposit that moves the scale amounts to a trade, and its price update moved the scale. -/
theorem DepositEnds.exists_of_moved {shares : Decimal} {quote : DepositQuote}
    {receipt : DepositReceipt} (h : DepositEnds p now shares quote receipt next)
    (hmoved : receipt.moved = true) :
    ∃ minted total last, liftShares receipt.minted = .ok minted ∧
      (shares + minted : Except Fault Decimal) = .ok total ∧
      p.state.updatePrice p.params now total quote.balances.toList last =
        (next.state, .ok true) := by
  cases h with
  | first _ _ hstill => exact absurd (hmoved.symm.trans hstill) (by simp)
  | even _ _ hstill => exact absurd (hmoved.symm.trans hstill) (by simp)
  | @uneven _ last minted total _ _ _ hminted htotal hupdate haccumulate =>
    refine ⟨minted, total, last, hminted, htotal, ?_⟩
    rw [(advances_accumulate haccumulate).2, PoolState.updatePrice, hupdate, hmoved]

/-- A deposit that moves the scale stores no smaller virtual price than it measured. -/
theorem DepositTrace.measured_le {amounts : List ℤ} {receipt : DepositReceipt}
    (trace : DepositTrace p balances amounts supply now receipt next)
    (hends : DepositEnds p now trace.shares trace.quote receipt next)
    (hprofit : 0 < p.state.price.profit.raw) (hmoved : receipt.moved = true) :
    ∃ measured, p.measureDeposit balances amounts supply now = .ok measured ∧
      measured ≤ next.state.price.virtualPrice := by
  obtain ⟨minted, total, last, hminted, htotal, hupdate⟩ := hends.exists_of_moved hmoved
  obtain ⟨measured, hmeasured, hle, -⟩ := PoolState.gate_of_updatePrice hprofit hupdate
  refine ⟨measured, ?_, hle⟩
  simp only [measureDeposit, bind_eq_ok]
  exact ⟨_, trace.hpools, _, trace.hdeposits, _, trace.hshares, _, trace.hquote, _,
    trace.hminted, _, hminted, _, htotal, hmeasured⟩

end Pool

namespace Ledger

variable {l next : Ledger}

/-- The profit of a funded ledger is positive. -/
theorem Funded.profit_pos (hl : l.Funded) : 0 < l.pool.state.price.profit.raw :=
  lt_of_lt_of_le (by decide) hl.profit

/-- A swap on a well-formed ledger that moves the scale stores no smaller virtual price than it
measured. -/
theorem measured_le_of_swap {offer : Offer} {amount now : ℤ} {terms : SwapTerms}
    {receipt : TradeReceipt} (hl : l.WellFormed)
    (h : l.swap offer amount now terms = .ok (receipt, next)) (hmoved : receipt.moved = true) :
    ∃ measured, l.pool.measureSwap l.balances offer amount l.supply now terms = .ok measured ∧
      measured ≤ next.pool.state.price.virtualPrice := by
  obtain ⟨pool, pair, ⟨trace⟩, hpair, hpos, -, rfl⟩ := exists_of_swap h
  have hfunded : l.Funded := hl.funded_of_balance hpair (hpos .base)
  exact trace.measured_le hfunded.profit_pos hmoved

/-- A deposit into a well-formed ledger that moves the scale stores no smaller virtual price than it
measured. -/
theorem measured_le_of_deposit {amounts : List ℤ} {now : ℤ} {receipt : DepositReceipt}
    (hl : l.WellFormed) (h : l.deposit amounts now = .ok (receipt, next))
    (hmoved : receipt.moved = true) :
    ∃ measured, l.pool.measureDeposit l.balances amounts l.supply now = .ok measured ∧
      measured ≤ next.pool.state.price.virtualPrice := by
  obtain ⟨pool, trace, hends, rfl⟩ := exists_of_deposit h
  by_cases hzero : l.supply = 0
  · have hstill := (hends.of_first (trace.isFirst_iff.mpr hzero)).2.1
    exact absurd (hmoved.symm.trans hstill) (by simp)
  · have hfunded : l.Funded :=
      hl.funded_of_supply (lt_of_le_of_ne trace.supply_nonneg (Ne.symm hzero))
    exact trace.measured_le hends hfunded.profit_pos hmoved

/-- A move of the price scale never lowers the virtual price. Of one price update, for every state
with profit: the virtual price that it stores is at least the one of the balances at the old scale,
and clears the threshold over it. (At the scale zero there is no virtual price, and no move.) And in
the states that a pool can reach from its creation, no swap and no deposit that reports a move
stores a smaller virtual price than the one that it measured at the old scale. -/
theorem virtualPrice_gate :
    (∀ {s t : PoolState} {params : PoolParams} {now : ℤ} {supply last : Decimal}
      {xs : List Decimal}, 0 < s.price.profit.raw →
      s.updatePrice params now supply xs last = (t, .ok true) →
      ∃ measured,
        virtualPriceAt (s.promotion.effective now) s.price.scale supply xs = .ok measured ∧
        measured ≤ t.price.virtualPrice ∧
        measured.raw *
            (t.price.profit.raw * (Decimal.scale + params.repegThreshold.raw) / Decimal.scale) ≤
          t.price.virtualPrice.raw * t.price.profit.raw) ∧
    ∀ {sources : List AssetSource} {initial : InitialParams} {created : ℤ} {token : String}
      {pool : Pool}, Pool.create sources initial created token = .ok pool → ∀ calls : List Call,
      (∀ {offer : Offer} {amount now : ℤ} {terms : SwapTerms} {receipt : TradeReceipt}
        {next : Ledger},
        ((ofPool pool).run calls).swap offer amount now terms = .ok (receipt, next) →
        receipt.moved = true →
        ∃ measured, ((ofPool pool).run calls).pool.measureSwap ((ofPool pool).run calls).balances
            offer amount ((ofPool pool).run calls).supply now terms = .ok measured ∧
          measured ≤ next.pool.state.price.virtualPrice) ∧
      ∀ {amounts : List ℤ} {now : ℤ} {receipt : DepositReceipt} {next : Ledger},
        ((ofPool pool).run calls).deposit amounts now = .ok (receipt, next) →
        receipt.moved = true →
        ∃ measured, ((ofPool pool).run calls).pool.measureDeposit
            ((ofPool pool).run calls).balances amounts ((ofPool pool).run calls).supply now =
              .ok measured ∧
          measured ≤ next.pool.state.price.virtualPrice := by
  refine ⟨fun hprofit hupdate ↦ PoolState.gate_of_updatePrice hprofit hupdate, ?_⟩
  intro sources initial created token pool hcreate calls
  have hrun : ((ofPool pool).run calls).WellFormed :=
    wellFormed_run (wellFormed_ofPool hcreate) calls
  constructor
  · intro offer amount now terms receipt next hswap hmoved
    exact measured_le_of_swap hrun hswap hmoved
  · intro amounts now receipt next hdeposit hmoved
    exact measured_le_of_deposit hrun hdeposit hmoved

/-- The usual pool after a first deposit and a large swap. Ten minutes later the oracle has begun to
follow the price of that swap. -/
def beforeMove : Ledger :=
  (ofPool Pool.usual).run [.deposit [1_000_000_000, 1_000_000_000] 0,
    .swap (.index 0) 300_000_000 0 ⟨none, some Limits.maxSlippage, none⟩]

/-- A thousand shares. -/
def evenShares : Decimal := ⟨1000 * Decimal.scale, by decide⟩

/-- Balances for a thousand shares that are nearly even. -/
def evenBalances : List Decimal :=
  [⟨1003 * Decimal.scale, by decide⟩, ⟨1000 * Decimal.scale, by decide⟩]

/-- Ten minutes after the large swap a price update with even balances moves the scale of the usual
pool, and so does the swap that makes its balances even. -/
theorem virtualPrice_gate_usual :
    Pool.create [.known ⟨"uusd", 6⟩, .known ⟨"uluna", 6⟩] Pool.usualParams 0 "shares" =
        .ok Pool.usual ∧
      (∃ t measured,
        beforeMove.pool.state.updatePrice beforeMove.pool.params 600 evenShares evenBalances .one =
          (t, .ok true) ∧
        virtualPriceAt (beforeMove.pool.state.promotion.effective 600)
          beforeMove.pool.state.price.scale evenShares evenBalances = .ok measured ∧
        measured ≤ t.price.virtualPrice) ∧
      ∃ receipt next measured,
        beforeMove.swap (.index 1) 233_000_000 600 ⟨none, some Limits.maxSlippage, none⟩ =
          .ok (receipt, next) ∧ receipt.moved = true ∧
        beforeMove.pool.measureSwap beforeMove.balances (.index 1) 233_000_000 beforeMove.supply 600
          ⟨none, some Limits.maxSlippage, none⟩ = .ok measured ∧
        measured ≤ next.pool.state.price.virtualPrice := by
  refine ⟨Pool.create_usual, ?_, ?_⟩
  · obtain ⟨moved, houtcome, hmoved⟩ := exists_of_any
      (beforeMove.pool.state.updatePrice beforeMove.pool.params 600 evenShares evenBalances .one).2
      (fun moved ↦ moved) (by decide +kernel)
    rw [show moved = true from hmoved] at houtcome
    have hprofit : 0 < beforeMove.pool.state.price.profit.raw := by decide +kernel
    obtain ⟨measured, hmeasured, hle, -⟩ :=
      virtualPrice_gate.1 hprofit (Prod.ext rfl houtcome)
    exact ⟨_, measured, Prod.ext rfl houtcome, hmeasured, hle⟩
  · obtain ⟨⟨receipt, next⟩, hswap, hmoved⟩ := exists_of_any
      (beforeMove.swap (.index 1) 233_000_000 600 ⟨none, some Limits.maxSlippage, none⟩)
      (fun result ↦ result.1.moved) (by decide +kernel)
    obtain ⟨measured, hmeasured, hle⟩ := (virtualPrice_gate.2 Pool.create_usual _).1 hswap hmoved
    exact ⟨receipt, next, measured, hswap, hmoved, hmeasured, hle⟩

end Ledger

end ConcentratedPool
