import ConcentratedPool.Proofs.DecimalRounding
import ConcentratedPool.Proofs.ShareBacking

/-!
# The first deposit

The first deposit mints the whole token units of the virtual capital that its balances have, and
leaves a thousand of them to the pool (`minted_of_firstShare`). The virtual price that it records is
the capital, which is not rounded to token units, over the shares, which are: it is at least one,
and above one by less than one part in the number of shares (`virtualPrice_mem`), of which there are
more than a thousand. Nothing else of the pool changes, and whoever withdraws all shares that were
minted leaves the part of the locked ones behind. All of it is in `firstDeposit_exact`.
-/

set_option autoImplicit false
set_option relaxedAutoImplicit false

namespace ConcentratedPool

/-! ### Shares and virtual price -/

/-- The number of units in one token unit of shares. -/
def shareUnit : ℕ := Decimal.tokenUnit Limits.sharePrecision

theorem shareUnit_pos : 0 < shareUnit := Decimal.tokenUnit_pos _

/-- The first deposit mints the whole token units of the capital, less the locked ones, of which
there have to be fewer. -/
theorem minted_of_firstShare {capital share : Decimal} {minted : ℕ}
    (hshare : firstShare capital = .ok share)
    (hminted : share.toTokens Limits.sharePrecision = .ok minted) :
    Limits.lockedShares < capital.raw / shareUnit ∧
      minted + Limits.lockedShares = capital.raw / shareUnit := by
  simp only [firstShare, bind_eq_ok, refuse_eq_ok, Decimal.toTokens_eq_ok,
    Decimal.ofTokens_eq_ok, not_le] at hshare
  obtain ⟨_, ⟨-, rfl⟩, hlocked, -, hraw⟩ := hshare
  have hwhole : share.raw = (capital.raw / shareUnit - Limits.lockedShares) * shareUnit := by
    exact_mod_cast hraw
  obtain ⟨-, htokens⟩ := Decimal.toTokens_eq_ok.mp hminted
  have hcount : capital.raw / shareUnit - Limits.lockedShares = minted := by
    rw [← htokens, hwhole]
    exact (Nat.mul_div_cancel _ shareUnit_pos).symm
  exact ⟨hlocked, hcount ▸ Nat.sub_add_cancel hlocked.le⟩

/-- The token units of a decimal are its whole units of their size. -/
theorem Decimal.floor_toRat_mul (a : Decimal) :
    ⌊a.toRat * 10 ^ Limits.sharePrecision⌋₊ = a.raw / shareUnit := by
  have hscale : (scale : ℚ) = 10 ^ Limits.sharePrecision * shareUnit := by
    exact_mod_cast (by decide : scale = 10 ^ Limits.sharePrecision * shareUnit)
  rw [← Nat.floor_div_eq_div (K := ℚ), toRat, hscale]
  congr 1
  field_simp

/-- The virtual price of shares that are the whole token units of the capital: one, and less than
one part in their number more. -/
theorem virtualPrice_mem {capital total virtualPrice : Decimal}
    (htotal : total.raw = capital.raw / shareUnit * shareUnit)
    (h : (capital / total : Except Fault Decimal) = .ok virtualPrice) :
    1 ≤ virtualPrice.toRat ∧ virtualPrice.toRat < 1 + 1 / (capital.raw / shareUnit : ℕ) := by
  obtain ⟨hne, hraw⟩ := Decimal.div_eq_ok.mp h
  have hpos : 0 < total.raw := Nat.pos_of_ne_zero hne
  have hcount : 0 < capital.raw / shareUnit :=
    Nat.pos_of_mul_pos_right (htotal ▸ hpos)
  constructor
  · have hscale : Decimal.scale ≤ virtualPrice.raw := by
      rw [hraw, Nat.le_div_iff_mul_le hpos, Nat.mul_comm]
      exact Nat.mul_le_mul_right _ (htotal ▸ Nat.div_mul_le_self _ _)
    rw [← Decimal.toRat_one, Decimal.toRat_le_toRat]
    exact hscale
  · have hnext : capital.raw < (capital.raw / shareUnit + 1) * shareUnit := by
      rw [Nat.mul_comm]
      exact Nat.lt_mul_div_succ _ shareUnit_pos
    have hscaled : virtualPrice.raw * (capital.raw / shareUnit) <
        (capital.raw / shareUnit + 1) * Decimal.scale := by
      refine Nat.lt_of_mul_lt_mul_right (a := shareUnit) ?_
      calc virtualPrice.raw * (capital.raw / shareUnit) * shareUnit
          = virtualPrice.raw * total.raw := by rw [htotal, Nat.mul_assoc]
        _ ≤ capital.raw * Decimal.scale := Decimal.div_raw_le h
        _ < (capital.raw / shareUnit + 1) * shareUnit * Decimal.scale :=
            Nat.mul_lt_mul_of_pos_right hnext Decimal.scale_pos
        _ = (capital.raw / shareUnit + 1) * Decimal.scale * shareUnit := by ring
    have hcountRat : (0 : ℚ) < (capital.raw / shareUnit : ℕ) := by exact_mod_cast hcount
    have hscaleRat := Decimal.cast_scale_pos
    rw [one_add_div hcountRat.ne', Decimal.toRat, div_lt_div_iff₀ hscaleRat hcountRat]
    exact_mod_cast hscaled

/-! ### The deposit -/

/-- The quote of a deposit into an empty pool without shares: the balances after it are what is
deposited, and the shares are those of the first deposit. -/
theorem exists_of_quoteDeposit_empty {state : PoolState} {params : PoolParams}
    {pools deposits : Pair Decimal} {shares : Decimal} {now : ℤ} {q : DepositQuote}
    (h : quoteDeposit state params pools deposits shares now = .ok q)
    (hpools : ∀ side, (pools.get side).raw = 0) (hshares : shares.raw = 0) :
    scaledBalances state.price.scale deposits = .ok q.balances ∧
      (state.promotion.effective now).invariant q.balances.toList = .ok q.invariant ∧
      virtualCapital q.invariant state.price.scale = .ok q.capital ∧
      firstShare q.capital = .ok q.share ∧ q.fee = .zero ∧ q.isFirst = true := by
  have hempty : shares.isZero = true := Decimal.isZero_eq_true.mpr hshares
  simp only [quoteDeposit, refuse_eq_ok, bind_eq_ok, hempty, if_true, pure_eq_ok,
    Decimal.add_eq_ok] at h
  obtain ⟨-, base, hbase, quote, hquote, value, hvalue, d, hd, capital, hcapital, share, hshare,
    rfl⟩ := h
  have hnoBase : pools.base.raw = 0 := hpools .base
  have hnoQuote : pools.quote.raw = 0 := hpools .quote
  obtain rfl : base = deposits.base := Decimal.ext (by rw [hbase, hnoBase, Nat.zero_add])
  obtain rfl : quote = deposits.quote := Decimal.ext (by rw [hquote, hnoQuote, Nat.zero_add])
  refine ⟨?_, hd, hcapital, hshare, rfl, rfl⟩
  simp only [scaledBalances, bind_eq_ok, pure_eq_ok]
  exact ⟨value, hvalue, rfl⟩

namespace Pool

variable {p next : Pool} {amounts : List ℤ} {now : ℤ} {receipt : DepositReceipt}

/-- The balances of an empty pool are zero as decimals. -/
theorem raw_eq_zero_of_lift {pools : Pair Decimal} (h : p.lift [0, 0] = .ok pools) (side : Side) :
    (pools.get side).raw = 0 := by
  obtain ⟨pair, hpair, hraw⟩ := exists_of_lift h
  obtain rfl : ⟨0, 0⟩ = pair := Pair.toList_inj.mp hpair
  have hzero := (hraw side).2
  cases side <;> simpa [Pair.get] using hzero

/-- What a deposit into an empty pool without shares mints and leaves. -/
theorem exists_of_deposit_empty (h : p.deposit [0, 0] amounts 0 now = .ok (receipt, next)) :
    ∃ deposits x d capital share total virtualPrice, p.lift amounts = .ok deposits ∧
      scaledBalances p.state.price.scale deposits = .ok x ∧
      (p.state.promotion.effective now).invariant x.toList = .ok d ∧
      virtualCapital d p.state.price.scale = .ok capital ∧ firstShare capital = .ok share ∧
      share.toTokens Limits.sharePrecision = .ok receipt.minted ∧
      liftShares (receipt.minted + Limits.lockedShares : ℕ) = .ok total ∧
      (capital / total : Except Fault Decimal) = .ok virtualPrice ∧
      receipt = ⟨receipt.minted, Limits.lockedShares, .zero, false⟩ ∧
      next = { p with
        state.price := { p.state.price with capital, profit := .one, virtualPrice } } := by
  simp only [deposit, bind_eq_ok] at h
  obtain ⟨pools, hpools, deposits, hdeposits, shares, hshares, q, hquote, minted, hminted, h⟩ := h
  have hzero : shares.raw = 0 := by
    have hraw := (liftShares_eq_ok hshares).2
    rw [zero_mul] at hraw
    exact_mod_cast hraw
  obtain ⟨hx, hd, hcapital, hshare, hfee, hfirst⟩ :=
    exists_of_quoteDeposit_empty hquote (raw_eq_zero_of_lift hpools) hzero
  simp only [hfirst, if_true, startProfit, bind_eq_ok, pure_eq_ok, Prod.mk.injEq] at h
  obtain ⟨_, ⟨total, htotal, virtualPrice, hprice, rfl⟩, rfl, rfl⟩ := h
  exact ⟨deposits, q.balances, q.invariant, q.capital, q.share, total, virtualPrice, hdeposits, hx,
    hd, hcapital, hshare, hminted, htotal, hprice, by rw [hfee], rfl⟩

/-- The first deposit, exactly. It mints the whole token units of the virtual capital of what is
deposited, less the locked ones, and at least one of them; the profit starts at one and the virtual
price at one or less than a thousandth above; nothing else of the pool changes. Whoever withdraws
all shares that were minted leaves at least the part of the locked ones of both assets behind. -/
theorem firstDeposit_exact (h : p.deposit [0, 0] amounts 0 now = .ok (receipt, next)) :
    (∃ deposits x d capital virtualPrice, p.lift amounts = .ok deposits ∧
      scaledBalances p.state.price.scale deposits = .ok x ∧
      (p.state.promotion.effective now).invariant x.toList = .ok d ∧
      virtualCapital d p.state.price.scale = .ok capital ∧
      receipt.minted + receipt.locked = ⌊capital.toRat * 10 ^ Limits.sharePrecision⌋₊ ∧
      1 ≤ virtualPrice.toRat ∧ virtualPrice.toRat < 1 + 1 / 1000 ∧
      next = { p with
        state.price := { p.state.price with capital, profit := .one, virtualPrice } }) ∧
    receipt.locked = Limits.lockedShares ∧ 1 ≤ receipt.minted ∧ receipt.fee = .zero ∧
    receipt.moved = false ∧
    ∀ (later : ℤ) (choice : List ℤ) (refunds : Pair ℕ) (left : Pool),
      next.withdraw amounts receipt.minted (receipt.minted + receipt.locked) later choice =
        .ok (refunds, left) →
      ∃ pair : Pair ℤ, amounts = pair.toList ∧ ∀ side, (refunds.get side : ℤ) < pair.get side ∧
        refunds.get side * (receipt.minted + receipt.locked) ≤ pair.get side * receipt.minted := by
  obtain ⟨deposits, x, d, capital, share, total, virtualPrice, hdeposits, hx, hd, hcapital, hshare,
    hminted, htotal, hprice, hreceipt, hnext⟩ := exists_of_deposit_empty h
  obtain ⟨hlocked, hsum⟩ := minted_of_firstShare hshare hminted
  have hreceiptLocked : receipt.locked = Limits.lockedShares := by rw [hreceipt]
  have hone : 1 ≤ receipt.minted := by omega
  have htotalRaw : total.raw = capital.raw / shareUnit * shareUnit := by
    have hlifted := (liftShares_eq_ok htotal).2
    rw [hsum] at hlifted
    exact_mod_cast hlifted
  obtain ⟨hlow, hhigh⟩ := virtualPrice_mem htotalRaw hprice
  refine ⟨⟨deposits, x, d, capital, virtualPrice, hdeposits, hx, hd, hcapital, ?_, hlow, ?_, hnext⟩,
    hreceiptLocked, hone, by rw [hreceipt], by rw [hreceipt], ?_⟩
  · rw [Decimal.floor_toRat_mul, hreceiptLocked, hsum]
  · have hmany : (1000 : ℚ) ≤ (capital.raw / shareUnit : ℕ) := by exact_mod_cast hlocked.le
    calc virtualPrice.toRat < 1 + 1 / (capital.raw / shareUnit : ℕ) := hhigh
      _ ≤ 1 + 1 / 1000 := by gcongr
  · intro later choice refunds left hwithdraw
    obtain ⟨trace⟩ := nonempty_withdrawalTrace hwithdraw
    obtain ⟨pair, hpair, -⟩ := exists_of_lift trace.hpools
    exact ⟨pair, hpair, fun side ↦ ⟨trace.refund_lt hpair side, trace.refund_mul_le hpair side⟩⟩

/-- A thousand units of each asset are deposited in the usual pool at an even price, and all shares
that were minted are withdrawn after an hour. -/
theorem firstDeposit_exact_usual :
    ∃ receipt next refunds left,
      usual.deposit [0, 0] [1_000_000_000, 1_000_000_000] 0 60 = .ok (receipt, next) ∧
      next.withdraw [1_000_000_000, 1_000_000_000] receipt.minted
        (receipt.minted + receipt.locked) 3660 [] = .ok (refunds, left) ∧
      receipt.locked = 1000 ∧ receipt.minted = 999_999_000 ∧ next.state.price.profit = .one ∧
      ∀ side, refunds.get side * (receipt.minted + receipt.locked) ≤
        1_000_000_000 * receipt.minted := by
  obtain ⟨⟨_, _⟩, hrun, hminted⟩ := exists_of_any (do
    let made ← usual.deposit [0, 0] [1_000_000_000, 1_000_000_000] 0 60
    let kept ← made.2.withdraw [1_000_000_000, 1_000_000_000] made.1.minted
      (made.1.minted + made.1.locked) 3660 []
    return (made, kept)) (fun run ↦ run.1.1.minted = 999_999_000) (by decide +kernel)
  simp only [bind_eq_ok, pure_eq_ok, Prod.mk.injEq] at hrun
  obtain ⟨⟨receipt, next⟩, hdeposit, ⟨refunds, left⟩, hwithdraw, rfl, rfl⟩ := hrun
  obtain ⟨⟨_, _, _, _, _, -, -, -, -, -, -, -, hnext⟩, hlocked, -, -, -, hrefund⟩ :=
    firstDeposit_exact hdeposit
  obtain ⟨pair, hpair, hpart⟩ := hrefund _ _ _ _ hwithdraw
  obtain rfl : ⟨1_000_000_000, 1_000_000_000⟩ = pair := Pair.toList_inj.mp hpair
  refine ⟨receipt, next, refunds, left, hdeposit, hwithdraw, hlocked, by simpa using hminted,
    by rw [hnext], fun side ↦ ?_⟩
  have hget : (⟨1_000_000_000, 1_000_000_000⟩ : Pair ℤ).get side = 1_000_000_000 := by
    cases side <;> rfl
  have hside := (hpart side).2
  rw [hget] at hside
  exact_mod_cast hside

end Pool

end ConcentratedPool
