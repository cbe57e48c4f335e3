import ConcentratedPool.Proofs.SwapValue

/-!
# Depositing and withdrawing at once

A deposit is paid by the growth of the solved invariant, from `d` to `d'`, and a withdrawal by the
part of the shares that is burned. A depositor who withdraws at once gets back more than was put in
only where the invariant has grown by more than the balances have: what is gained of an asset, times
`d'`, is at most `B d' - (B + a) d` (`gain_mul_le`, `Ledger.refund_of_roundTrip`). All roundings and
the fee go to the pool.

On the exact curve that bound is zero for a deposit in the ratio of the pool, because the curve is
the same at every size (`AmpGamma.supports_mul_iff`). What is left are the errors of the two solves,
and where the first one is far off the depositor takes the difference
(`Ledger.refund_exceeds_deposit_skewed`).
-/

set_option autoImplicit false
set_option relaxedAutoImplicit false

namespace ConcentratedPool

/-- Shares that are minted in proportion to the growth of an invariant and burned at once, pro rata,
gain no more than the invariant has grown beyond the balance. -/
theorem gain_mul_le {supply minted before paid refund d d' : ℤ} (hsupply : 0 < supply + minted)
    (hafter : 0 ≤ before + paid) (hd' : 0 ≤ d') (hmint : (supply + minted) * d ≤ supply * d')
    (hrefund : refund * (supply + minted) ≤ (before + paid) * minted) :
    (refund - paid) * d' ≤ before * d' - (before + paid) * d := by
  have hscaled : (supply + minted) * (refund * d') ≤
      (supply + minted) * ((before + paid) * (d' - d)) :=
    calc (supply + minted) * (refund * d')
        = refund * (supply + minted) * d' := by ring
      _ ≤ (before + paid) * minted * d' := mul_le_mul_of_nonneg_right hrefund hd'
      _ = (before + paid) * ((supply + minted) * d' - supply * d') := by ring
      _ ≤ (before + paid) * ((supply + minted) * d' - (supply + minted) * d) :=
          mul_le_mul_of_nonneg_left (by linarith) hafter
      _ = (supply + minted) * ((before + paid) * (d' - d)) := by ring
  have hgrowth := le_of_mul_le_mul_left hscaled hsupply
  linarith

namespace Ledger

/-- The balances after a deposit. -/
def afterDeposit (pair paid : Pair ℤ) : Pair ℤ := ⟨pair.base + paid.base, pair.quote + paid.quote⟩

theorem get_afterDeposit (pair paid : Pair ℤ) (side : Side) :
    (afterDeposit pair paid).get side = pair.get side + paid.get side := by
  cases side <;> rfl

end Ledger

/-! ### What a later deposit mints -/

/-- A deposit into a pool with shares compares the invariants before and after it: its shares are to
those before at most as the growth of the invariant is to the invariant before. -/
theorem exists_of_quoteDeposit {state : PoolState} {params : PoolParams}
    {pools deposits : Pair Decimal} {shares : Decimal} {now : ℤ} {q : DepositQuote}
    (h : quoteDeposit state params pools deposits shares now = .ok q) (hshares : shares.raw ≠ 0) :
    ∃ (after x : Pair Decimal) (d : Decimal),
      (∀ side, (after.get side).raw = (pools.get side).raw + (deposits.get side).raw) ∧
      (∀ side, (pools.get side).raw ≠ 0) ∧
      scaledBalances state.price.scale after = .ok q.balances ∧
      (state.promotion.effective now).invariant q.balances.toList = .ok q.invariant ∧
      scaledBalances state.price.scale pools = .ok x ∧
      (state.promotion.effective now).invariant x.toList = .ok d ∧ d.raw ≠ 0 ∧
      (shares.raw + q.share.raw) * d.raw ≤ shares.raw * q.invariant.raw := by
  simp only [quoteDeposit, refuse_eq_ok, bind_eq_ok, Decimal.add_eq_ok] at h
  obtain ⟨-, base, hbase, quote, hquote, value, hvalue, d', hd', capital, -, h⟩ := h
  rcases branch_eq_ok.mp h with ⟨hzero, -⟩ | ⟨-, hlater⟩
  · exact absurd (Decimal.isZero_eq_true.mp hzero) hshares
  simp only [refuse_eq_ok, bind_eq_ok, pure_eq_ok, Bool.not_eq_true] at hlater
  obtain ⟨hpools, x, hx, d, hd, product, hproduct, grown, hgrown, _, -, fee, -, rest, hrest, share,
    hshare, tokens, htokens, hminted, _, -, rfl⟩ := hlater
  have hpos : ∀ side, (pools.get side).raw ≠ 0 := fun side ↦
    Decimal.isZero_eq_false.mp (Pair.any_eq_false.mp hpools side)
  refine ⟨⟨base, quote⟩, x, d, ?_, hpos, ?_, hd', hx, hd, (Decimal.div_eq_ok.mp hgrown).1, ?_⟩
  · intro side
    cases side
    · exact hbase
    · exact hquote
  · simp only [scaledBalances, bind_eq_ok, pure_eq_ok]
    exact ⟨value, hvalue, rfl⟩
  have hgrowth : grown.raw * d.raw ≤ shares.raw * d'.raw :=
    (Decimal.div_raw_le hgrown).trans (Decimal.mul_raw_le hproduct)
  -- The fee leaves the depositor no more than the growth.
  have hnet : share.raw ≤ grown.raw - shares.raw := by
    have hrate : rest.raw ≤ Decimal.scale := by
      rw [Decimal.sub_eq_ok] at hrest
      exact Nat.le.intro hrest
    refine Nat.le_of_mul_le_mul_right ?_ Decimal.scale_pos
    exact (Decimal.mul_raw_le hshare).trans (Nat.mul_le_mul_left _ hrate)
  have hsome : share.raw ≠ 0 := by
    intro hzero
    rw [Decimal.toTokens_eq_ok, hzero, Nat.zero_div] at htokens
    exact hminted htokens.2.symm
  have hsum : shares.raw + share.raw ≤ grown.raw := by omega
  exact (Nat.mul_le_mul_right _ hsum).trans hgrowth

/-- What a withdrawal refunds of a balance is at most the part that is burned of the shares. -/
theorem refund_mul_le_of_quoteWithdrawal {state : PoolState} {pools refunds : Pair Decimal}
    {amount shares capital : Decimal} {now : ℤ}
    (h : quoteWithdrawal state pools amount shares now = .ok (refunds, capital)) (side : Side) :
    (refunds.get side).raw * shares.raw ≤ (pools.get side).raw * amount.raw := by
  have hless := (Pool.of_quoteWithdrawal h).1
  simp only [quoteWithdrawal, shareOfPool, refuse_eq_ok, bind_eq_ok, pure_eq_ok,
    Prod.mk.injEq] at h
  obtain ⟨-, -, _, ⟨ratio, hratio, base, hbase, quote, hquote, rfl⟩, _, -, _, -, _, -, -, _, -, _,
    -, rfl, -⟩ := h
  have hshares : ¬ shares.isZero = true := by
    rw [Decimal.isZero_eq_true]
    omega
  rw [shareRatio, if_neg hshares] at hratio
  have hpart : ∀ {balance refund : Decimal}, (balance * ratio : Except Fault Decimal) = .ok refund →
      refund.raw * shares.raw ≤ balance.raw * amount.raw := by
    intro balance refund hrefund
    refine Nat.le_of_mul_le_mul_right ?_ Decimal.scale_pos
    calc refund.raw * shares.raw * Decimal.scale
        = refund.raw * Decimal.scale * shares.raw := by ring
      _ ≤ balance.raw * ratio.raw * shares.raw :=
          Nat.mul_le_mul_right _ (Decimal.mul_raw_le hrefund)
      _ = balance.raw * (ratio.raw * shares.raw) := by ring
      _ ≤ balance.raw * (amount.raw * Decimal.scale) :=
          Nat.mul_le_mul_left _ (Decimal.div_raw_le hratio)
      _ = balance.raw * amount.raw * Decimal.scale := by ring
  cases side
  · exact hpart hbase
  · exact hpart hquote

namespace Pool

variable {p next : Pool} {balances : List ℤ} {supply now : ℤ}

/-- A later deposit finds positive balances, and an invariant before it and one after it. Its shares
are to those before at most as the growth of the invariant is to the invariant before. -/
theorem DepositTrace.exists_invariants {amounts : List ℤ} {receipt : DepositReceipt}
    (trace : DepositTrace p balances amounts supply now receipt next) (hsupply : supply ≠ 0) :
    ∃ d d', p.invariant balances now = .ok d ∧
      p.invariant (balances.zipWith (· + ·) amounts) now = .ok d' ∧
      (∀ pair : Pair ℤ, balances = pair.toList → ∀ side, 0 < pair.get side) ∧ 0 < d.raw ∧
      (supply + receipt.minted) * d.raw ≤ supply * d'.raw := by
  obtain ⟨before, hbefore, hbeforeRaw⟩ := exists_of_lift trace.hpools
  obtain ⟨paid, hpaid, hpaidRaw⟩ := exists_of_lift trace.hdeposits
  obtain ⟨-, hsharesRaw⟩ := liftShares_eq_ok trace.hshares
  have hunit : (0 : ℤ) < Decimal.tokenUnit Limits.sharePrecision := by
    exact_mod_cast Decimal.tokenUnit_pos _
  have hshares : trace.shares.raw ≠ 0 := by
    intro hzero
    rw [hzero, Nat.cast_zero, eq_comm, mul_eq_zero] at hsharesRaw
    exact hsharesRaw.elim hsupply hunit.ne'
  obtain ⟨after, x, d, hafter, hpools, hbalances, hd', hx, hd, hpos, hmint⟩ :=
    exists_of_quoteDeposit trace.hquote hshares
  refine ⟨d, trace.quote.invariant, ?_, ?_, ?_, Nat.pos_of_ne_zero hpos, ?_⟩
  · simp only [invariant, bind_eq_ok]
    exact ⟨_, trace.hpools, x, hx, hd⟩
  · have hlift : p.lift (balances.zipWith (· + ·) amounts) = .ok after := by
      rw [hbefore, hpaid]
      change p.lift (Ledger.afterDeposit before paid).toList = .ok after
      refine lift_toList (precision_le_of_lift trace.hpools) (fun side ↦ ?_) (fun side ↦ ?_)
      · rw [Ledger.get_afterDeposit]
        exact add_nonneg (hbeforeRaw side).1 (hpaidRaw side).1
      · rw [hafter side, Nat.cast_add, (hbeforeRaw side).2, (hpaidRaw side).2, ← add_mul,
          Ledger.get_afterDeposit]
    simp only [invariant, bind_eq_ok]
    exact ⟨_, hlift, _, hbalances, hd'⟩
  · intro pair hpair side
    obtain rfl : before = pair := Pair.toList_inj.mp (hbefore.symm.trans hpair)
    exact amount_pos_of_lifted (hbeforeRaw side).2 (hpools side)
  · have hminted := trace.hminted
    rw [Decimal.toTokens_eq_ok] at hminted
    have hfloor : (receipt.minted : ℤ) * Decimal.tokenUnit Limits.sharePrecision ≤
        trace.quote.share.raw := by
      rw [← hminted.2]
      exact_mod_cast Nat.div_mul_le_self _ _
    zify at hmint
    rw [hsharesRaw] at hmint
    refine le_of_mul_le_mul_right ?_ hunit
    calc (supply + receipt.minted) * d.raw * Decimal.tokenUnit Limits.sharePrecision
        = (supply * Decimal.tokenUnit Limits.sharePrecision +
            receipt.minted * Decimal.tokenUnit Limits.sharePrecision) * d.raw := by ring
      _ ≤ (supply * Decimal.tokenUnit Limits.sharePrecision + trace.quote.share.raw) * d.raw :=
          mul_le_mul_of_nonneg_right (by linarith) (Int.natCast_nonneg _)
      _ ≤ supply * Decimal.tokenUnit Limits.sharePrecision * trace.quote.invariant.raw := hmint
      _ = supply * trace.quote.invariant.raw * Decimal.tokenUnit Limits.sharePrecision := by ring

/-- What a withdrawal refunds of a balance is at most the part that is burned of the shares. -/
theorem WithdrawalTrace.refund_mul_le {burn : ℤ} {refunds : Pair ℕ}
    (trace : WithdrawalTrace p balances burn supply now refunds next) {pair : Pair ℤ}
    (hpair : balances = pair.toList) (side : Side) :
    refunds.get side * supply ≤ pair.get side * burn := by
  obtain ⟨lifted, hlifted, hraw⟩ := exists_of_lift trace.hpools
  obtain rfl : pair = lifted := Pair.toList_inj.mp (hpair.symm.trans hlifted)
  obtain ⟨-, hamount⟩ := liftShares_eq_ok trace.hamount
  obtain ⟨-, hshares⟩ := liftShares_eq_ok trace.hshares
  have hunit : (0 : ℤ) < p.unit side * Decimal.tokenUnit Limits.sharePrecision := by
    exact_mod_cast Nat.mul_pos (Decimal.tokenUnit_pos _) (Decimal.tokenUnit_pos _)
  have hlowered : (refunds.get side * p.unit side : ℤ) ≤ (trace.decimals.get side).raw := by
    exact_mod_cast lower_mul_unit_le trace.hlower side
  have hpart : ((trace.decimals.get side).raw * trace.shares.raw : ℤ) ≤
      (trace.pools.get side).raw * trace.amount.raw := by
    exact_mod_cast refund_mul_le_of_quoteWithdrawal trace.hquote side
  refine le_of_mul_le_mul_right ?_ hunit
  calc refunds.get side * supply * (p.unit side * Decimal.tokenUnit Limits.sharePrecision)
      = refunds.get side * p.unit side * trace.shares.raw := by rw [hshares]; ring
    _ ≤ (trace.decimals.get side).raw * trace.shares.raw :=
        mul_le_mul_of_nonneg_right hlowered (Int.natCast_nonneg _)
    _ ≤ (trace.pools.get side).raw * trace.amount.raw := hpart
    _ = pair.get side * burn * (p.unit side * Decimal.tokenUnit Limits.sharePrecision) := by
        rw [(hraw side).2, hamount]
        ring

/-- Token balances in units of equal value, exactly. -/
def exactValue (p : Pool) (pair : Pair ℤ) : Pair ℚ :=
  ⟨pair.base * p.unit .base / Decimal.scale,
    pair.quote * p.unit .quote / Decimal.scale * p.state.price.scale.toRat⟩

/-- Balances that have grown by the same factor on both sides are worth that factor more. -/
theorem exactValue_eq_map {before after : Pair ℤ} {c : ℚ}
    (h : ∀ side, (after.get side : ℚ) = c * before.get side) :
    p.exactValue after = (p.exactValue before).map (c * ·) := by
  have hbase : (after.base : ℚ) = c * before.base := h .base
  have hquote : (after.quote : ℚ) = c * before.quote := h .quote
  ext
  · simp only [exactValue, Pair.map, hbase]
    ring
  · simp only [exactValue, Pair.map, hquote]
    ring

/-- Balances that are not negative are not worth less than nothing. -/
theorem exactValue_nonneg {pair : Pair ℤ} (h : ∀ side, 0 ≤ pair.get side) (side : Side) :
    0 ≤ (p.exactValue pair).get side := by
  have hscale := p.state.price.scale.toRat_nonneg
  have hbase : (0 : ℚ) ≤ pair.base := by exact_mod_cast h .base
  have hquote : (0 : ℚ) ≤ pair.quote := by exact_mod_cast h .quote
  cases side
  · simp only [exactValue, Pair.get]
    positivity
  · simp only [exactValue, Pair.get]
    positivity

end Pool

namespace Ledger

/-- A deposit in the ratio of the balances lets both grow by the same factor. -/
theorem exists_factor_of_ratio {before paid : Pair ℤ} (hpos : ∀ side, 0 < before.get side)
    (hpaid : ∀ side, 0 ≤ paid.get side)
    (hratio : paid.base * before.quote = paid.quote * before.base) :
    ∃ c : ℚ, 0 < c ∧
      ∀ side, ((afterDeposit before paid).get side : ℚ) = c * before.get side := by
  have hbase : (before.base : ℚ) ≠ 0 := by exact_mod_cast (hpos .base).ne'
  have hratio' : (paid.base * before.quote : ℚ) = paid.quote * before.base := by
    exact_mod_cast hratio
  have hfactor : (0 : ℚ) < (before.base + paid.base) / before.base := by
    have hposBase : (0 : ℚ) < before.base := by exact_mod_cast hpos .base
    have hpaidBase : (0 : ℚ) ≤ paid.base := by exact_mod_cast hpaid .base
    positivity
  refine ⟨(before.base + paid.base) / before.base, hfactor, fun side ↦ ?_⟩
  cases side
  · simp only [afterDeposit, Pair.get, Int.cast_add]
    rw [div_mul_cancel₀ _ hbase]
  · simp only [afterDeposit, Pair.get, Int.cast_add]
    rw [div_mul_eq_mul_div, eq_div_iff hbase]
    linarith

section RoundTrip

variable {l mid next : Ledger} {before paid : Pair ℤ} {now : ℤ} {choice : List ℤ}
variable {receipt : DepositReceipt} {refunds : Pair ℕ}

/-- What a depositor gains of an asset who withdraws at once, times the new invariant, is at most
what the invariant has grown beyond the balance. -/
theorem gain_of_roundTrip (hbefore : l.balances = before.toList) (hsupply : l.supply ≠ 0)
    (hdeposit : l.deposit paid.toList now = .ok (receipt, mid))
    (hwithdraw : mid.withdraw receipt.minted now choice = .ok (refunds, next)) :
    ∃ d d', l.pool.invariant l.balances now = .ok d ∧ l.pool.invariant mid.balances now = .ok d' ∧
      (∀ side, 0 < before.get side) ∧ (∀ side, 0 ≤ paid.get side) ∧ (0 : ℤ) < d'.raw ∧
      ∀ side, (refunds.get side - paid.get side) * (d'.raw : ℤ) ≤
        before.get side * d'.raw - (before.get side + paid.get side) * d.raw := by
  obtain ⟨pool, trace, hends, rfl⟩ := exists_of_deposit hdeposit
  obtain ⟨d, d', hd, hd', hpos, hdPos, hmint⟩ := trace.exists_invariants hsupply
  obtain ⟨left, after, ⟨burned⟩, hafter, rfl⟩ := exists_of_withdraw hwithdraw
  have hafter : afterDeposit before paid = after := by
    rw [hbefore] at hafter
    exact Pair.toList_inj.mp hafter
  have hlocked : (receipt.locked : ℤ) = 0 := by
    have hlater : trace.quote.isFirst ≠ true := fun hfirst ↦
      hsupply (trace.isFirst_iff.mp hfirst)
    exact_mod_cast hends.locked_eq_zero hlater
  have hsupplyPos : 0 < l.supply := lt_of_le_of_ne trace.supply_nonneg hsupply.symm
  have htotal : 0 < l.supply + receipt.minted := by omega
  have hd'Pos : (0 : ℤ) < d'.raw := by
    have hgrown : 0 < l.supply * d'.raw :=
      lt_of_lt_of_le (mul_pos htotal (by exact_mod_cast hdPos)) hmint
    exact (mul_pos_iff_of_pos_left hsupplyPos).mp hgrown
  have hpaid : ∀ side, 0 ≤ paid.get side := by
    obtain ⟨pair, hpair, hone⟩ := trace.exists_amounts
    obtain rfl : paid = pair := Pair.toList_inj.mp hpair
    exact fun side ↦ zero_le_one.trans (hone side)
  refine ⟨d, d', hd, hd', hpos before hbefore, hpaid, hd'Pos, fun side ↦ ?_⟩
  have hmid : l.balances.zipWith (· + ·) paid.toList = after.toList := by
    rw [hbefore, ← hafter]
    rfl
  have hrefund := burned.refund_mul_le hmid side
  rw [← hafter, get_afterDeposit, hlocked, add_zero] at hrefund
  exact gain_mul_le htotal (add_nonneg (hpos before hbefore side).le (hpaid side)) hd'Pos.le hmint
    hrefund

/-- A depositor in the ratio of the pool who withdraws at once gains nothing of an asset unless the
solved invariant has grown by more than the balance. On the exact curve it cannot: what is gained is
bounded by the errors of the two solves, `ε` of the invariant before, which is not below the root
less `ε`, and `δ` of the invariant after, which is not above the root plus `δ`. -/
theorem refund_of_roundTrip (hbefore : l.balances = before.toList) (hsupply : l.supply ≠ 0)
    (hratio : paid.base * before.quote = paid.quote * before.base)
    (hdeposit : l.deposit paid.toList now = .ok (receipt, mid))
    (hwithdraw : mid.withdraw receipt.minted now choice = .ok (refunds, next)) :
    ∃ d d', l.pool.invariant l.balances now = .ok d ∧ l.pool.invariant mid.balances now = .ok d' ∧
      (∀ side, d'.raw * before.get side ≤ d.raw * (before.get side + paid.get side) →
        refunds.get side ≤ paid.get side) ∧
      ∀ ε δ : ℚ, 0 < d.toRat + ε → δ < d'.toRat →
        ¬ (l.pool.state.promotion.effective now).Supports (d.toRat + ε)
          (l.pool.exactValue before) →
        (l.pool.state.promotion.effective now).Supports (d'.toRat - δ)
          (l.pool.exactValue (afterDeposit before paid)) →
        ∀ side, (refunds.get side - paid.get side) * d'.toRat ≤
          (before.get side + paid.get side) * ε + before.get side * δ := by
  obtain ⟨d, d', hd, hd', hpos, hpaid, hd'Pos, hgain⟩ :=
    gain_of_roundTrip hbefore hsupply hdeposit hwithdraw
  refine ⟨d, d', hd, hd', fun side hgrown ↦ ?_, fun ε δ hε hδ hreached hkept side ↦ ?_⟩
  · have hnone : (refunds.get side - paid.get side) * (d'.raw : ℤ) ≤ 0 := by
      refine (hgain side).trans ?_
      linarith
    exact sub_nonpos.mp (nonpos_of_mul_nonpos_left hnone hd'Pos)
  · obtain ⟨c, hc, hgrown⟩ := exists_factor_of_ratio hpos hpaid hratio
    rw [Pool.exactValue_eq_map hgrown] at hkept
    have hroot : d'.toRat - δ < c * (d.toRat + ε) :=
      hkept.lt_mul hc hε (Pool.exactValue_nonneg fun side ↦ (hpos side).le) hreached
    have hbalance : (before.get side : ℚ) * (d'.toRat - δ) ≤
        (before.get side + paid.get side) * (d.toRat + ε) := by
      have hside : (before.get side + paid.get side : ℚ) = c * before.get side := by
        rw [← hgrown side, get_afterDeposit, Int.cast_add]
      rw [hside, mul_comm c, mul_assoc]
      exact mul_le_mul_of_nonneg_left hroot.le (by exact_mod_cast (hpos side).le)
    have hexact : (refunds.get side - paid.get side : ℚ) * d'.toRat ≤
        before.get side * d'.toRat - (before.get side + paid.get side) * d.toRat := by
      unfold Decimal.toRat
      rw [← mul_div_assoc, ← mul_div_assoc, ← mul_div_assoc, ← sub_div]
      exact div_le_div_of_nonneg_right (by exact_mod_cast hgain side) (Nat.cast_nonneg _)
    linarith

end RoundTrip

/-- On an even pool the invariant grows as the balances do, and who deposits and withdraws at once
gains nothing. -/
theorem refund_of_roundTrip_even :
    ∃ receipt mid refunds next, even.deposit [1_000_000, 1_000_000] 600 = .ok (receipt, mid) ∧
      mid.withdraw receipt.minted 600 [] = .ok (refunds, next) ∧
      ∀ side, (refunds.get side : ℤ) ≤ 1_000_000 := by
  obtain ⟨grown, hrun, hgrown⟩ := exists_of_any (do
    let deposited ← even.deposit [1_000_000, 1_000_000] 600
    let withdrawn ← deposited.2.withdraw deposited.1.minted 600 []
    let d ← even.pool.invariant even.balances 600
    let d' ← even.pool.invariant deposited.2.balances 600
    return decide (d'.raw * 1_000_000_000 ≤ d.raw * (1_000_000_000 + 1_000_000))) (fun b ↦ b)
    (by decide +kernel)
  simp only [bind_eq_ok, pure_eq_ok, Prod.exists] at hrun
  obtain ⟨receipt, mid, hdeposit, refunds, next, hwithdraw, d, hd, d', hd', rfl⟩ := hrun
  have hless : (d'.raw : ℤ) * 1_000_000_000 ≤ d.raw * (1_000_000_000 + 1_000_000) := by
    exact_mod_cast of_decide_eq_true hgrown
  have hbefore : even.balances = (⟨1_000_000_000, 1_000_000_000⟩ : Pair ℤ).toList := by
    decide +kernel
  have hpaid : even.deposit (⟨1_000_000, 1_000_000⟩ : Pair ℤ).toList 600 = .ok (receipt, mid) :=
    hdeposit
  obtain ⟨e, e', he, he', hle, -⟩ :=
    refund_of_roundTrip hbefore (by decide +kernel) (by decide) hpaid hwithdraw
  obtain rfl : d = e := Except.ok.inj (hd.symm.trans he)
  obtain rfl : d' = e' := Except.ok.inj (hd'.symm.trans he')
  refine ⟨receipt, mid, refunds, next, hdeposit, hwithdraw, fun side ↦ ?_⟩
  cases side
  · exact hle .base hless
  · exact hle .quote hless

/-- On a skewed pool, at the time of the first deposit, who deposits ten times the balances and
withdraws at once gets back more of both assets than was put in: the solved invariant has grown by
more than the balances, because the one before the deposit was solved in a single step. -/
theorem refund_exceeds_deposit_skewed :
    Pool.create [.known ⟨"uusd", 6⟩, .known ⟨"uluna", 6⟩] Pool.usualParams 0 "shares" =
        .ok Pool.usual ∧
      skewed.balances = [1_000_000, 100_000_000] ∧
      (10_000_000 * 100_000_000 : ℤ) = 1_000_000_000 * 1_000_000 ∧
      ∃ receipt mid refunds next, skewed.deposit [10_000_000, 1_000_000_000] 0 =
          .ok (receipt, mid) ∧
        mid.withdraw receipt.minted 0 [] = .ok (refunds, next) ∧
        10_000_000 < refunds.base ∧ 1_000_000_000 < refunds.quote := by
  refine ⟨Pool.create_usual, by decide +kernel, by decide, ?_⟩
  obtain ⟨refunds, hrun, hmore⟩ := exists_of_any (do
    let deposited ← skewed.deposit [10_000_000, 1_000_000_000] 0
    let withdrawn ← deposited.2.withdraw deposited.1.minted 0 []
    return withdrawn.1)
    (fun refunds ↦ 10_000_000 < refunds.base ∧ 1_000_000_000 < refunds.quote) (by decide +kernel)
  simp only [bind_eq_ok, pure_eq_ok, Prod.exists] at hrun
  obtain ⟨receipt, mid, hdeposit, _, next, hwithdraw, rfl⟩ := hrun
  exact ⟨receipt, mid, _, next, hdeposit, hwithdraw, by simpa using hmore⟩

end Ledger

end ConcentratedPool
