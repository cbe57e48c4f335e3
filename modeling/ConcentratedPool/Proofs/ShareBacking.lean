import ConcentratedPool.Proofs.RoundTrip

/-!
# What backs a share

A deposit into a pool with shares leaves no less of the invariant behind each share than it found:
what it mints is to the shares before it at most as the growth of the invariant is to the invariant
before it, after the fee and all roundings (`invariant_per_share_of_deposit`). It mints at least one
token unit, so the invariant has grown.

A withdrawal leaves no less of either asset behind each share. `Ledger.withdrawEach` is any number
of withdrawals with nothing between them; how the shares to burn are split over them gains nothing
(`Ledger.balance_per_share_of_withdrawals`).
-/

set_option autoImplicit false
set_option relaxedAutoImplicit false

namespace ConcentratedPool

/-! ### Deposits -/

/-- A deposit into a pool with shares mints at least one token unit of them. -/
theorem exists_minted_of_quoteDeposit {state : PoolState} {params : PoolParams}
    {pools deposits : Pair Decimal} {shares : Decimal} {now : ℤ} {q : DepositQuote}
    (h : quoteDeposit state params pools deposits shares now = .ok q) (hshares : shares.raw ≠ 0) :
    ∃ minted, q.share.toTokens Limits.sharePrecision = .ok minted ∧ 1 ≤ minted := by
  simp only [quoteDeposit, refuse_eq_ok, bind_eq_ok] at h
  obtain ⟨-, _, -, _, -, _, -, _, -, _, -, h⟩ := h
  rcases branch_eq_ok.mp h with ⟨hzero, -⟩ | ⟨-, hlater⟩
  · exact absurd (Decimal.isZero_eq_true.mp hzero) hshares
  simp only [refuse_eq_ok, bind_eq_ok, pure_eq_ok] at hlater
  obtain ⟨-, _, -, _, -, _, -, _, -, _, -, _, -, _, -, _, -, minted, htokens, hminted, _, -, rfl⟩ :=
    hlater
  exact ⟨minted, htokens, Nat.one_le_iff_ne_zero.mpr hminted⟩

/-- What is worth a token unit is worth something. -/
theorem Decimal.raw_pos_of_toTokens {a : Decimal} {precision : ℤ} {n : ℕ}
    (h : a.toTokens precision = .ok n) (hn : 1 ≤ n) : 0 < a.raw := by
  obtain ⟨-, rfl⟩ := Decimal.toTokens_eq_ok.mp h
  exact Nat.pos_of_div_pos hn

/-- Where shares that are minted keep the invariant per share, the invariant grows. -/
theorem lt_of_mint {supply minted d d' : ℤ} (hsupply : 0 < supply) (hminted : 1 ≤ minted)
    (hd : 0 < d) (hmint : (supply + minted) * d ≤ supply * d') : d < d' := by
  have hgrown : supply * d < supply * d' :=
    calc supply * d < (supply + minted) * d := mul_lt_mul_of_pos_right (by linarith) hd
      _ ≤ supply * d' := hmint
  exact lt_of_mul_lt_mul_left hgrown hsupply.le

/-- No deposit into a pool with shares dilutes them. The quote of one compares the invariants of the
scaled balances before and after it: the invariant grows, the share is positive, and share and
invariant keep the invariant per share. A deposit that is carried out mints at least one token unit,
and the token units that it mints keep it as well. -/
theorem invariant_per_share_of_deposit :
    (∀ (state : PoolState) (params : PoolParams) (pools deposits : Pair Decimal) (shares : Decimal)
        (now : ℤ) (q : DepositQuote), 0 < shares.raw →
      quoteDeposit state params pools deposits shares now = .ok q →
      ∃ (after x : Pair Decimal) (d : Decimal),
        (∀ side, (after.get side).raw = (pools.get side).raw + (deposits.get side).raw) ∧
        scaledBalances state.price.scale after = .ok q.balances ∧
        (state.promotion.effective now).invariant q.balances.toList = .ok q.invariant ∧
        scaledBalances state.price.scale pools = .ok x ∧
        (state.promotion.effective now).invariant x.toList = .ok d ∧
        d < q.invariant ∧ 0 < q.share.raw ∧
        (shares.raw + q.share.raw) * d.raw ≤ shares.raw * q.invariant.raw) ∧
    ∀ (p next : Pool) (balances amounts : List ℤ) (supply now : ℤ) (receipt : DepositReceipt),
      0 < supply → p.deposit balances amounts supply now = .ok (receipt, next) →
      ∃ d d', p.invariant balances now = .ok d ∧
        p.invariant (balances.zipWith (· + ·) amounts) now = .ok d' ∧
        d < d' ∧ 1 ≤ receipt.minted ∧
        (supply + receipt.minted) * d.raw ≤ supply * d'.raw := by
  constructor
  · intro state params pools deposits shares now q hshares h
    obtain ⟨after, x, d, hafter, -, hbalances, hd', hx, hd, hpos, hmint⟩ :=
      exists_of_quoteDeposit h hshares.ne'
    obtain ⟨minted, htokens, hminted⟩ := exists_minted_of_quoteDeposit h hshares.ne'
    have hshare : 0 < q.share.raw := Decimal.raw_pos_of_toTokens htokens hminted
    refine ⟨after, x, d, hafter, hbalances, hd', hx, hd, ?_, hshare, hmint⟩
    have hmintInt : ((shares.raw : ℤ) + q.share.raw) * d.raw ≤ shares.raw * q.invariant.raw := by
      exact_mod_cast hmint
    have hgrown : (d.raw : ℤ) < q.invariant.raw :=
      lt_of_mint (by exact_mod_cast hshares) (by exact_mod_cast hshare)
        (by exact_mod_cast Nat.pos_of_ne_zero hpos) hmintInt
    exact Decimal.lt_def.mpr (by exact_mod_cast hgrown)
  · intro p next balances amounts supply now receipt hsupply h
    obtain ⟨trace, -⟩ := Pool.exists_depositTrace h
    obtain ⟨d, d', hd, hd', -, hpos, hmint⟩ := trace.exists_invariants hsupply.ne'
    have hshares : trace.shares.raw ≠ 0 := fun hzero ↦
      hsupply.ne' (trace.isFirst_iff.mp ((Pool.of_quoteDeposit trace.hquote).2.mpr hzero))
    obtain ⟨minted, htokens, hminted⟩ := exists_minted_of_quoteDeposit trace.hquote hshares
    obtain rfl : minted = receipt.minted := Except.ok.inj (htokens.symm.trans trace.hminted)
    refine ⟨d, d', hd, hd', ?_, hminted, hmint⟩
    have hgrown : (d.raw : ℤ) < d'.raw :=
      lt_of_mint hsupply (by exact_mod_cast hminted) (by exact_mod_cast hpos) hmint
    exact Decimal.lt_def.mpr (by exact_mod_cast hgrown)

/-- A thousand units. -/
def Decimal.thousand : Decimal := ⟨1000 * Decimal.one.raw, by decide⟩

/-- Three units of the one asset and one of the other keep the invariant per share, both as a quote
for a pool of a thousand units of each and as a deposit that is carried out. -/
theorem invariant_per_share_of_deposit_uneven :
    (∃ q d, quoteDeposit Pool.usual.state Pool.usual.params ⟨.thousand, .thousand⟩ ⟨.three, .one⟩
        .thousand 600 = .ok q ∧ d < q.invariant ∧ 0 < q.share.raw ∧
      (Decimal.thousand.raw + q.share.raw) * d.raw ≤ Decimal.thousand.raw * q.invariant.raw) ∧
    ∃ receipt next d d', Ledger.even.pool.deposit Ledger.even.balances [3_000_000, 1_000_000]
        Ledger.even.supply 600 = .ok (receipt, next) ∧ d < d' ∧ 1 ≤ receipt.minted ∧
      (Ledger.even.supply + receipt.minted) * d.raw ≤ Ledger.even.supply * Decimal.raw d' := by
  constructor
  · obtain ⟨q, hq, -⟩ := exists_of_any (quoteDeposit Pool.usual.state Pool.usual.params
      ⟨.thousand, .thousand⟩ ⟨.three, .one⟩ .thousand 600) (fun _ ↦ true) (by decide +kernel)
    obtain ⟨-, -, d, -, -, -, -, -, hgrown, hshare, hmint⟩ :=
      invariant_per_share_of_deposit.1 _ _ _ _ _ _ _ (by decide) hq
    exact ⟨q, d, hq, hgrown, hshare, hmint⟩
  · obtain ⟨⟨receipt, next⟩, hdeposit, -⟩ := exists_of_any (Ledger.even.pool.deposit
      Ledger.even.balances [3_000_000, 1_000_000] Ledger.even.supply 600) (fun _ ↦ true)
      (by decide +kernel)
    obtain ⟨d, d', -, -, hgrown, hminted, hmint⟩ :=
      invariant_per_share_of_deposit.2 _ _ _ _ _ _ _ (by decide +kernel) hdeposit
    exact ⟨receipt, next, d, d', hdeposit, hgrown, hminted, hmint⟩

/-! ### Withdrawals -/

/-- One withdrawal out of several. -/
structure Drawing where
  /-- The shares to burn. -/
  burn : ℤ
  now : ℤ
  choice : List ℤ

namespace Ledger

variable {l next : Ledger}

/-- Withdraws several times with nothing between, and gives the refunds of each; all of it is
refused if one is. -/
def withdrawEach (l : Ledger) : List Drawing → Except Fault (List (Pair ℕ) × Ledger)
  | [] => .ok ([], l)
  | drawing :: rest => do
    let (refunds, mid) ← l.withdraw drawing.burn drawing.now drawing.choice
    let (others, next) ← mid.withdrawEach rest
    return (refunds :: others, next)

/-- The refunds of several withdrawals together. -/
def totalRefund (refunds : List (Pair ℕ)) (side : Side) : ℕ := (refunds.map (·.get side)).sum

/-- What backs the shares of `next` compared to those of `l`: some shares and two positive balances
are left, and no share is backed by less of either asset. -/
structure Backed (l next : Ledger) (before after : Pair ℤ) : Prop where
  found : l.balances = before.toList
  left : next.balances = after.toList
  supply_pos : 0 < next.supply
  balance_pos : ∀ side, 0 < after.get side
  per_share : ∀ side, before.get side * next.supply ≤ after.get side * l.supply

/-- Backing that no step lowers is not lowered by all of them. -/
theorem Backed.trans {mid : Ledger} {before between after : Pair ℤ}
    (h : l.Backed mid before between) (h' : mid.Backed next between after)
    (hsupply : 0 ≤ l.supply) : l.Backed next before after := by
  refine ⟨h.found, h'.left, h'.supply_pos, h'.balance_pos, fun side ↦ ?_⟩
  refine le_of_mul_le_mul_right ?_ h.supply_pos
  calc before.get side * next.supply * mid.supply
      = before.get side * mid.supply * next.supply := by ring
    _ ≤ between.get side * l.supply * next.supply :=
        mul_le_mul_of_nonneg_right (h.per_share side) h'.supply_pos.le
    _ = between.get side * next.supply * l.supply := by ring
    _ ≤ after.get side * mid.supply * l.supply :=
        mul_le_mul_of_nonneg_right (h'.per_share side) hsupply
    _ = after.get side * l.supply * mid.supply := by ring

/-- One withdrawal does not lower the backing of a share, and takes from the books what it refunds
and burns. -/
theorem backed_of_withdraw {burn now : ℤ} {choice : List ℤ} {refunds : Pair ℕ}
    (h : l.withdraw burn now choice = .ok (refunds, next)) :
    ∃ before, l.Backed next before (afterWithdrawal before refunds) ∧ 0 < l.supply ∧
      next.supply = l.supply - burn := by
  obtain ⟨pool, pair, ⟨trace⟩, hpair, rfl⟩ := exists_of_withdraw h
  obtain ⟨hsign, hburn⟩ := trace.burn_lt
  have hget : ∀ side, (afterWithdrawal pair refunds).get side =
      pair.get side - refunds.get side := by
    intro side
    cases side <;> rfl
  refine ⟨pair, ⟨hpair, rfl, sub_pos.mpr hburn, fun side ↦ ?_, fun side ↦ ?_⟩,
    hsign.trans_lt hburn, rfl⟩
  · rw [hget]
    exact sub_pos.mpr (trace.refund_lt hpair side)
  · rw [hget]
    have hrefund := trace.refund_mul_le hpair side
    linarith

/-- Withdrawals without any other call between them do not lower the backing of a share, and take
from the books what they refund and burn. -/
theorem backed_of_withdrawEach {drawings : List Drawing} {refunds : List (Pair ℕ)}
    (h : l.withdrawEach drawings = .ok (refunds, next)) (hsome : drawings ≠ []) :
    ∃ before after, l.Backed next before after ∧ 0 < l.supply ∧
      next.supply = l.supply - (drawings.map Drawing.burn).sum ∧
      ∀ side, after.get side = before.get side - totalRefund refunds side := by
  -- The ledger that the first withdrawal leaves is the one that the others find.
  induction drawings generalizing l refunds with
  | nil => exact absurd rfl hsome
  | cons drawing rest ih =>
    simp only [withdrawEach, bind_eq_ok, pure_eq_ok, Prod.exists, Prod.mk.injEq] at h
    obtain ⟨first, mid, hfirst, others, last, hothers, rfl, rfl⟩ := h
    obtain ⟨before, hbacked, hsupply, hburned⟩ := backed_of_withdraw hfirst
    have hget : ∀ side, (afterWithdrawal before first).get side =
        before.get side - first.get side := by
      intro side
      cases side <;> rfl
    cases rest with
    | nil =>
      obtain ⟨rfl, rfl⟩ : [] = others ∧ mid = last := by simpa [withdrawEach] using hothers
      refine ⟨before, _, hbacked, hsupply, by simpa using hburned, fun side ↦ ?_⟩
      simpa [totalRefund] using hget side
    | cons drawing' rest' =>
      obtain ⟨between, after, hlater, -, hburnedLater, htotal⟩ := ih hothers (by simp)
      obtain rfl : afterWithdrawal before first = between :=
        Pair.toList_inj.mp (hbacked.left.symm.trans hlater.found)
      refine ⟨before, after, hbacked.trans hlater hsupply.le, hsupply, ?_, fun side ↦ ?_⟩
      · rw [hburnedLater, hburned]
        simp only [List.map_cons, List.sum_cons]
        ring
      · rw [htotal, hget]
        simp only [totalRefund, List.map_cons, List.sum_cons, Nat.cast_add]
        ring

end Ledger

/-- What a withdrawal refunds is what the burned shares are said to stand for, and nothing of the
pool changes but the virtual capital. -/
theorem Pool.shareInTokens_of_withdraw {p next : Pool} {balances : List ℤ} {burn supply now : ℤ}
    {choice : List ℤ} {refunds : Pair ℕ}
    (h : p.withdraw balances burn supply now choice = .ok (refunds, next)) :
    p.shareInTokens balances burn supply = .ok refunds ∧
      ∃ capital, next = p.withCapital capital := by
  obtain ⟨trace⟩ := nonempty_withdrawalTrace h
  refine ⟨?_, trace.capital, trace.hnext⟩
  have hquote := trace.hquote
  simp only [quoteWithdrawal, refuse_eq_ok, bind_eq_ok, pure_eq_ok, Prod.mk.injEq] at hquote
  obtain ⟨-, -, decimals, hshare, _, -, _, -, _, -, -, _, -, _, -, rfl, -⟩ := hquote
  simp only [shareInTokens, bind_eq_ok]
  exact ⟨_, trace.hpools, _, trace.hamount, _, trace.hshares, _, hshare, trace.hlower⟩

namespace Ledger

/-- Withdrawals are never better than pro rata, however the shares are split over them. Any number
of withdrawals that follow one another leave some shares, two positive balances and no less of
either asset behind each share; together they refund at most the part of a balance that they burn of
the shares. Each of them refunds what its shares are said to stand for, and changes nothing of the
pool but the virtual capital. -/
theorem balance_per_share_of_withdrawals :
    (∀ (l next : Ledger) (drawings : List Drawing) (refunds : List (Pair ℕ)), drawings ≠ [] →
      l.withdrawEach drawings = .ok (refunds, next) →
      ∃ before after, l.Backed next before after ∧
        next.supply = l.supply - (drawings.map Drawing.burn).sum ∧
        ∀ side, after.get side = before.get side - totalRefund refunds side ∧
          totalRefund refunds side * l.supply ≤
            before.get side * (drawings.map Drawing.burn).sum) ∧
    ∀ (p next : Pool) (balances : List ℤ) (burn supply now : ℤ) (choice : List ℤ)
        (refunds : Pair ℕ), p.withdraw balances burn supply now choice = .ok (refunds, next) →
      p.shareInTokens balances burn supply = .ok refunds ∧
        ∃ capital, next = p.withCapital capital := by
  refine ⟨fun l next drawings refunds hsome h ↦ ?_, fun p next _ _ _ _ _ _ h ↦
    Pool.shareInTokens_of_withdraw h⟩
  obtain ⟨before, after, hbacked, -, hburned, htotal⟩ := backed_of_withdrawEach h hsome
  refine ⟨before, after, hbacked, hburned, fun side ↦ ⟨htotal side, ?_⟩⟩
  have hshare := hbacked.per_share side
  rw [hburned, htotal] at hshare
  linarith

/-- Three withdrawals from the even pool, the second of a single token unit of shares. -/
def threeDrawings : List Drawing := [⟨333_333_333, 600, []⟩, ⟨1, 600, []⟩, ⟨70_000_000, 1200, []⟩]

/-- Three withdrawals leave the even pool with no less of either asset behind each share, and the
first of them refunds what its shares are said to stand for. -/
theorem balance_per_share_of_withdrawals_even :
    threeDrawings ≠ [] ∧
      (∃ refunds next before after, even.withdrawEach threeDrawings = .ok (refunds, next) ∧
        even.Backed next before after) ∧
      ∃ refunds next, even.pool.withdraw even.balances 333_333_333 even.supply 600 [] =
          .ok (refunds, next) ∧
        even.pool.shareInTokens even.balances 333_333_333 even.supply = .ok refunds := by
  refine ⟨by decide, ?_, ?_⟩
  · obtain ⟨⟨refunds, next⟩, hrun, -⟩ := exists_of_any (even.withdrawEach threeDrawings)
      (fun _ ↦ true) (by decide +kernel)
    obtain ⟨before, after, hbacked, -⟩ :=
      balance_per_share_of_withdrawals.1 even next threeDrawings refunds (by decide) hrun
    exact ⟨refunds, next, before, after, hrun, hbacked⟩
  · obtain ⟨⟨refunds, next⟩, hrun, -⟩ := exists_of_any (even.pool.withdraw even.balances 333_333_333
      even.supply 600 []) (fun _ ↦ true) (by decide +kernel)
    exact ⟨refunds, next, hrun, (balance_per_share_of_withdrawals.2 _ _ _ _ _ _ _ _ hrun).1⟩

end Ledger

end ConcentratedPool
