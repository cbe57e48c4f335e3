import ConcentratedPool.Proofs.LedgerSolvency

/-!
# Profit never falls

The profit counter of a pool grows with the virtual price and ignores its falls. No exit of a price
update leaves a smaller one (`PoolState.profit_le_of_updatePrice`), and neither does any call
(`Ledger.profit_le_of_apply`). The only assignment that could lower it is the one that starts it at
one with the first deposit. That deposit finds no shares, and by the invariant of ledgers there is
no profit then: shares that were minted once can never all be burned.
-/

set_option autoImplicit false
set_option relaxedAutoImplicit false

namespace ConcentratedPool

/-- A price update of a pool leaves no smaller profit, also where it fails after some of its
stages. -/
theorem PoolState.profit_le_of_updatePrice (s : PoolState) (params : PoolParams) (now : ℤ)
    (supply : Decimal) (xs : List Decimal) (last : Decimal) :
    s.price.profit ≤ (s.updatePrice params now supply xs last).1.price.profit :=
  PriceState.profit_le_of_update (Prod.mk.eta (p := s.price.update params
    (s.promotion.effective now) now supply xs last)).symm

namespace Ledger

variable {l next : Ledger}

/-- The profit in the pool of a ledger. -/
def profit (l : Ledger) : Decimal := l.pool.state.price.profit

/-- A deposit into a well-formed ledger leaves no smaller profit. -/
theorem profit_le_of_deposit {amounts : List ℤ} {now : ℤ} {receipt : DepositReceipt}
    (hl : l.WellFormed) (h : l.deposit amounts now = .ok (receipt, next)) :
    l.profit ≤ next.profit := by
  obtain ⟨pool, trace, hends, rfl⟩ := exists_of_deposit h
  exact (advances_of_deposit hl trace hends).profit

/-- A deposit that locks shares is the first one: a well-formed ledger has no profit before it, and
a profit of one after it. -/
theorem profit_of_locked {amounts : List ℤ} {now : ℤ} {receipt : DepositReceipt}
    (hl : l.WellFormed) (h : l.deposit amounts now = .ok (receipt, next))
    (hlocked : receipt.locked ≠ 0) : l.profit = .zero ∧ next.profit = .one := by
  obtain ⟨pool, trace, hends, rfl⟩ := exists_of_deposit h
  have hfirst : trace.quote.isFirst = true := by
    by_contra hlater
    exact hlocked (hends.locked_eq_zero hlater)
  exact ⟨hl.profit_eq_zero_of_supply (trace.isFirst_iff.mp hfirst), (hends.of_first hfirst).2.2⟩

/-- A call that a well-formed ledger carries out leaves no smaller profit. -/
theorem profit_le_of_apply {call : Call} {receipt : Receipt} (hl : l.WellFormed)
    (h : l.apply call = .ok (receipt, next)) : l.profit ≤ next.profit := by
  cases callEnds_of_apply h with
  | deposit hdeposit => exact profit_le_of_deposit hl hdeposit
  | swap hswap =>
    obtain ⟨_, _, ⟨trace⟩, -, -, -, rfl⟩ := exists_of_swap hswap
    exact trace.advances.profit
  | withdraw hwithdraw =>
    obtain ⟨_, _, ⟨trace⟩, -, rfl⟩ := exists_of_withdraw hwithdraw
    exact trace.advances.profit
  | kept hkept =>
    show l.profit.raw ≤ _
    rw [profit, profit, hkept.price]

/-- A step from a well-formed ledger leaves no smaller profit. -/
theorem profit_le_of_step (hl : l.WellFormed) (call : Call) : l.profit ≤ (l.step call).profit := by
  rcases l.step_eq call with ⟨receipt, happly⟩ | hsame
  · exact profit_le_of_apply hl happly
  · rw [hsame]
    exact Nat.le_refl _

/-- Profit is monotone. A price update never lowers it, whatever it comes to; and in the states that
a pool can reach from its creation no call lowers it, and the deposit that starts it at one finds it
at zero. -/
theorem profit_monotone :
    (∀ (s : PoolState) (params : PoolParams) (now : ℤ) (supply : Decimal) (xs : List Decimal)
      (last : Decimal), s.price.profit ≤ (s.updatePrice params now supply xs last).1.price.profit) ∧
    ∀ {sources : List AssetSource} {initial : InitialParams} {created : ℤ} {token : String}
      {pool : Pool}, Pool.create sources initial created token = .ok pool → ∀ calls : List Call,
      (∀ call, ((ofPool pool).run calls).profit ≤ (((ofPool pool).run calls).step call).profit) ∧
      ∀ {amounts : List ℤ} {now : ℤ} {receipt : DepositReceipt} {next : Ledger},
        ((ofPool pool).run calls).deposit amounts now = .ok (receipt, next) → receipt.locked ≠ 0 →
        ((ofPool pool).run calls).profit = .zero ∧ next.profit = .one := by
  refine ⟨PoolState.profit_le_of_updatePrice, ?_⟩
  intro sources initial created token pool hcreate calls
  have hrun : ((ofPool pool).run calls).WellFormed :=
    wellFormed_run (wellFormed_ofPool hcreate) calls
  exact ⟨profit_le_of_step hrun, fun hdeposit hlocked ↦ profit_of_locked hrun hdeposit hlocked⟩

/-- The first deposit into the usual pool starts the profit, and a swap after it adds to the
profit. -/
theorem profit_monotone_usual :
    Pool.create [.known ⟨"uusd", 6⟩, .known ⟨"uluna", 6⟩] Pool.usualParams 0 "shares" =
        .ok Pool.usual ∧
      (∃ receipt next, (ofPool Pool.usual).deposit [1_000_000_000, 1_000_000_000] 0 =
          .ok (receipt, next) ∧ receipt.locked ≠ 0 ∧
        (ofPool Pool.usual).profit = .zero ∧ next.profit = .one) ∧
      ((ofPool Pool.usual).run [.deposit [1_000_000_000, 1_000_000_000] 0]).profit <
        (((ofPool Pool.usual).run [.deposit [1_000_000_000, 1_000_000_000] 0]).step
          (.swap (.index 0) 1_000_000 600 ⟨none, none, none⟩)).profit := by
  refine ⟨Pool.create_usual, ?_, ?_⟩
  · obtain ⟨⟨receipt, next⟩, hdeposit, hlocked⟩ := exists_of_any
      ((ofPool Pool.usual).deposit [1_000_000_000, 1_000_000_000] 0)
      (fun result ↦ result.1.locked != 0) (by decide +kernel)
    have hne : receipt.locked ≠ 0 := bne_iff_ne.mp hlocked
    exact ⟨receipt, next, hdeposit, hne,
      (profit_monotone.2 Pool.create_usual []).2 hdeposit hne⟩
  · have hle := (profit_monotone.2 Pool.create_usual
      [.deposit [1_000_000_000, 1_000_000_000] 0]).1
      (.swap (.index 0) 1_000_000 600 ⟨none, none, none⟩)
    refine lt_of_le_of_ne (α := ℕ) hle ?_
    decide +kernel

end Ledger

end ConcentratedPool
