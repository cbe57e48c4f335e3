import ConcentratedPool.Proofs.PoolInvariant

/-!
# Ledgers stay solvent

A ledger keeps whole token units and whole shares, and its pool computes in decimals that are
rounded down. `Ledger.WellFormed` is what the two have in common in every state that can be reached:
either nobody has deposited yet (`Ledger.Unfunded`), or both balances and the shares are there and
the profit counter has started (`Ledger.Funded`); and the pool is in range.

Each call keeps it. A deposit adds to both balances (`Pool.DepositTrace.exists_sum`); the payout of
a swap is less than the balance it is taken from (`Pool.SwapTrace.payout_lt`); and a withdrawal
takes less than all shares and less than both balances (`Pool.WithdrawalTrace.burn_lt`,
`Pool.WithdrawalTrace.refund_lt`), so a ledger that was funded once stays so. The step lemma is
`Ledger.wellFormed_step` and the run lemma `Ledger.wellFormed_run`.
-/

set_option autoImplicit false
set_option relaxedAutoImplicit false

namespace ConcentratedPool

namespace Pool

variable {p next : Pool} {balances : List ℤ} {supply now : ℤ}

/-! ### What goes out -/

/-- What goes out of a pool was there: amounts whose decimals are less than a balance are themselves
less than it. -/
theorem tokens_lt_of_raw_lt {amount unit raw : ℕ} {balance : ℤ} (hle : amount * unit ≤ raw)
    (hlt : (raw : ℤ) < balance * unit) : (amount : ℤ) < balance := by
  have hscaled : (amount : ℤ) * unit < balance * unit :=
    lt_of_le_of_lt (by exact_mod_cast hle) hlt
  exact lt_of_mul_lt_mul_right hscaled (Int.natCast_nonneg unit)

/-- A quote is lowered to token amounts that are worth no more. -/
theorem of_lowerQuote {ask : Side} {q : SwapQuote} {t : TradeQuote}
    (h : p.lowerQuote ask q = .ok t) :
    t.output * p.unit ask ≤ q.output.raw ∧ t.makerFee * p.unit ask ≤ q.makerFee.raw := by
  simp only [lowerQuote, bind_eq_ok, pure_eq_ok, Decimal.toTokens_eq_ok] at h
  obtain ⟨_, ⟨-, rfl⟩, _, -, _, -, _, ⟨-, rfl⟩, rfl⟩ := h
  exact ⟨Nat.div_mul_le_self _ _, Nat.div_mul_le_self _ _⟩

/-- The balances after a swap: the offer has come in, the output and the maker's fee have gone out,
and something is left. -/
theorem of_balancesAfter {pools after : Pair Decimal} {side : Side} {dec : Decimal} {q : SwapQuote}
    (h : balancesAfter pools side dec q = .ok after) :
    (after.get side).raw = (pools.get side).raw + dec.raw ∧
      (after.get side.other).raw + (q.output.raw + q.makerFee.raw) = (pools.get side.other).raw ∧
      0 < (after.get side.other).raw := by
  simp only [balancesAfter, refuse_eq_ok, bind_eq_ok, pure_eq_ok, Decimal.add_eq_ok,
    Decimal.sub_eq_ok, Decimal.le_def, not_le] at h
  obtain ⟨increased, hincreased, out, hout, hcovered, left, hleft, rfl⟩ := h
  have hget : ((pools.set side increased).set side.other left).get side = increased := by
    cases side <;> rfl
  rw [hget, Pair.get_set_self]
  refine ⟨hincreased, ?_, ?_⟩
  · omega
  · omega

/-- The payout of a swap, with the maker's fee, is less than the balance it is taken from. -/
theorem SwapTrace.payout_lt {offer : Offer} {amount : ℤ} {terms : SwapTerms}
    {receipt : TradeReceipt}
    (trace : SwapTrace p balances offer amount supply now terms receipt next) {pair : Pair ℤ}
    (hpair : balances = pair.toList) :
    (receipt.quote.output + receipt.quote.makerFee : ℤ) < pair.get receipt.side.other := by
  obtain ⟨lifted, hlifted, -, -, hraw⟩ := exists_of_liftOffer trace.hlift
  obtain rfl : pair = lifted := Pair.toList_inj.mp (hpair.symm.trans hlifted)
  obtain ⟨-, hout, hleft⟩ := of_balancesAfter trace.hafter
  obtain ⟨houtput, hmaker⟩ := of_lowerQuote trace.hlower
  have hle : (receipt.quote.output + receipt.quote.makerFee) * p.unit receipt.side.other ≤
      trace.quote.output.raw + trace.quote.makerFee.raw := by
    rw [Nat.add_mul]
    exact Nat.add_le_add houtput hmaker
  have hlt : ((trace.quote.output.raw + trace.quote.makerFee.raw : ℕ) : ℤ) <
      pair.get receipt.side.other * p.unit receipt.side.other := by
    rw [← (hraw receipt.side.other).2]
    exact_mod_cast (by omega : trace.quote.output.raw + trace.quote.makerFee.raw <
      (trace.pools.get receipt.side.other).raw)
  exact_mod_cast tokens_lt_of_raw_lt hle hlt

/-! ### What a deposit finds -/

section Deposit

variable {amounts : List ℤ} {receipt : DepositReceipt}

/-- The balances that a deposit finds are two, and neither is negative. -/
theorem DepositTrace.exists_balances
    (trace : DepositTrace p balances amounts supply now receipt next) :
    ∃ pair : Pair ℤ, balances = pair.toList ∧ ∀ side, 0 ≤ pair.get side := by
  obtain ⟨pair, hpair, hraw⟩ := exists_of_lift trace.hpools
  exact ⟨pair, hpair, fun side ↦ (hraw side).1⟩

/-- The amounts of a deposit are two, and both are positive. -/
theorem DepositTrace.exists_amounts
    (trace : DepositTrace p balances amounts supply now receipt next) :
    ∃ pair : Pair ℤ, amounts = pair.toList ∧ ∀ side, 1 ≤ pair.get side := by
  obtain ⟨pair, hpair, hraw⟩ := exists_of_lift trace.hdeposits
  refine ⟨pair, hpair, fun side ↦ amount_pos_of_lifted (hraw side).2 ?_⟩
  exact Decimal.isZero_eq_false.mp
    (Pair.any_eq_false.mp (of_quoteDeposit trace.hquote).1 side)

/-- The balances that a deposit leaves are both positive. -/
theorem DepositTrace.exists_sum
    (trace : DepositTrace p balances amounts supply now receipt next) :
    ∃ pair : Pair ℤ, balances.zipWith (· + ·) amounts = pair.toList ∧
      ∀ side, 1 ≤ pair.get side := by
  obtain ⟨found, hfound, hsign⟩ := trace.exists_balances
  obtain ⟨added, hadded, hpos⟩ := trace.exists_amounts
  refine ⟨⟨found.base + added.base, found.quote + added.quote⟩, ?_, fun side ↦ ?_⟩
  · rw [hfound, hadded]
    rfl
  · cases side
    · show 1 ≤ found.base + added.base
      exact le_add_of_nonneg_of_le (hsign .base) (hpos .base)
    · show 1 ≤ found.quote + added.quote
      exact le_add_of_nonneg_of_le (hsign .quote) (hpos .quote)

/-- The shares that a deposit finds are not negative. -/
theorem DepositTrace.supply_nonneg
    (trace : DepositTrace p balances amounts supply now receipt next) : 0 ≤ supply :=
  (liftShares_eq_ok trace.hshares).1

/-- A deposit is the first one exactly when it finds no shares. -/
theorem DepositTrace.isFirst_iff
    (trace : DepositTrace p balances amounts supply now receipt next) :
    trace.quote.isFirst = true ↔ supply = 0 := by
  obtain ⟨-, hraw⟩ := liftShares_eq_ok trace.hshares
  have hunit : (0 : ℤ) < Decimal.tokenUnit Limits.sharePrecision := by
    exact_mod_cast Decimal.tokenUnit_pos _
  rw [(of_quoteDeposit trace.hquote).2]
  constructor
  · intro hzero
    rw [hzero, Nat.cast_zero, eq_comm, mul_eq_zero] at hraw
    exact hraw.resolve_right hunit.ne'
  · rintro rfl
    rw [zero_mul] at hraw
    exact_mod_cast hraw

variable {shares : Decimal} {quote : DepositQuote}

/-- The first deposit locks shares, does not move the scale and starts the profit at one. -/
theorem DepositEnds.of_first (h : DepositEnds p now shares quote receipt next)
    (hfirst : quote.isFirst = true) :
    receipt.locked = Limits.lockedShares ∧ receipt.moved = false ∧
      next.state.price.profit = .one := by
  cases h with
  | first _ hlocked hmoved => exact ⟨hlocked, hmoved, rfl⟩
  | even hlater => exact absurd (hfirst.symm.trans hlater) (by simp)
  | uneven hlater => exact absurd (hfirst.symm.trans hlater) (by simp)

/-- A later deposit locks no shares. -/
theorem DepositEnds.locked_eq_zero (h : DepositEnds p now shares quote receipt next)
    (hlater : quote.isFirst ≠ true) : receipt.locked = 0 := by
  cases h with
  | first hfirst => exact absurd hfirst hlater
  | even _ hlocked => exact hlocked
  | uneven _ hlocked => exact hlocked

/-- A deposit leaves some shares: those that it found, or those that the first one locks. -/
theorem DepositTrace.one_le_supply
    (trace : DepositTrace p balances amounts supply now receipt next)
    (hends : DepositEnds p now trace.shares trace.quote receipt next) :
    1 ≤ supply + receipt.minted + receipt.locked := by
  have hsupply := trace.supply_nonneg
  by_cases hzero : supply = 0
  · have hlocked : receipt.locked = 1000 := (hends.of_first (trace.isFirst_iff.mpr hzero)).1
    omega
  · omega

end Deposit

section Withdrawal

variable {burn : ℤ} {refunds : Pair ℕ}

/-- A withdrawal burns less than all shares. -/
theorem WithdrawalTrace.burn_lt
    (trace : WithdrawalTrace p balances burn supply now refunds next) :
    0 ≤ burn ∧ burn < supply := by
  obtain ⟨hsign, hamount⟩ := liftShares_eq_ok trace.hamount
  obtain ⟨-, hshares⟩ := liftShares_eq_ok trace.hshares
  have hlt : (trace.amount.raw : ℤ) < trace.shares.raw := by
    exact_mod_cast (of_quoteWithdrawal trace.hquote).1
  rw [hamount, hshares] at hlt
  exact ⟨hsign, lt_of_mul_lt_mul_right hlt (Int.natCast_nonneg _)⟩

/-- A withdrawal takes less than the balance of either side. -/
theorem WithdrawalTrace.refund_lt
    (trace : WithdrawalTrace p balances burn supply now refunds next) {pair : Pair ℤ}
    (hpair : balances = pair.toList) (side : Side) : (refunds.get side : ℤ) < pair.get side := by
  obtain ⟨lifted, hlifted, hraw⟩ := exists_of_lift trace.hpools
  obtain rfl : pair = lifted := Pair.toList_inj.mp (hpair.symm.trans hlifted)
  have hlt : ((trace.decimals.get side).raw : ℤ) < pair.get side * p.unit side := by
    rw [← (hraw side).2]
    exact_mod_cast (of_quoteWithdrawal trace.hquote).2 side
  exact tokens_lt_of_raw_lt (lower_mul_unit_le trace.hlower side) hlt

end Withdrawal

end Pool

namespace Ledger

variable {l next : Ledger}

/-! ### The invariant -/

/-- Nobody has deposited yet. -/
structure Unfunded (l : Ledger) : Prop where
  balances : l.balances = [0, 0]
  supply : l.supply = 0
  profit : l.pool.state.price.profit = .zero

/-- There are two positive balances and some shares, and the profit counter has started. -/
structure Funded (l : Ledger) : Prop where
  balances : ∃ pair : Pair ℤ, l.balances = pair.toList ∧ ∀ side, 1 ≤ pair.get side
  supply : 1 ≤ l.supply
  profit : Decimal.one ≤ l.pool.state.price.profit

/-- What holds of a ledger in every state that can be reached. -/
structure WellFormed (l : Ledger) : Prop where
  books : l.Unfunded ∨ l.Funded
  pool : l.pool.InRange

/-- A new pool makes a well-formed ledger. -/
theorem wellFormed_ofPool {sources : List AssetSource} {initial : InitialParams} {now : ℤ}
    {token : String} {pool : Pool} (h : Pool.create sources initial now token = .ok pool) :
    (ofPool pool).WellFormed := by
  obtain ⟨hrange, hprofit⟩ := Pool.inRange_create h
  exact ⟨.inl ⟨rfl, rfl, hprofit⟩, hrange⟩

/-- A ledger stays well-formed where its books and the prices of its pool are left alone. -/
theorem WellFormed.of_keepsPrices {pool : Pool} (hl : l.WellFormed)
    (hkept : l.pool.KeepsPrices pool) : (⟨pool, l.balances, l.supply⟩ : Ledger).WellFormed := by
  refine ⟨?_, hkept.inRange hl.pool⟩
  rcases hl.books with hunfunded | hfunded
  · refine .inl ⟨hunfunded.balances, hunfunded.supply, ?_⟩
    rw [hkept.price]
    exact hunfunded.profit
  · refine .inr ⟨hfunded.balances, hfunded.supply, ?_⟩
    rw [hkept.price]
    exact hfunded.profit

/-- A well-formed ledger with shares is funded. -/
theorem WellFormed.funded_of_supply (hl : l.WellFormed) (hsupply : 0 < l.supply) : l.Funded := by
  rcases hl.books with hunfunded | hfunded
  · rw [hunfunded.supply] at hsupply
    exact absurd hsupply (lt_irrefl 0)
  · exact hfunded

/-- A well-formed ledger with a balance is funded. -/
theorem WellFormed.funded_of_balance {pair : Pair ℤ} (hl : l.WellFormed)
    (hpair : l.balances = pair.toList) {side : Side} (hpos : 0 < pair.get side) : l.Funded := by
  rcases hl.books with hunfunded | hfunded
  · have hzero : (⟨0, 0⟩ : Pair ℤ) = pair :=
      Pair.toList_inj.mp (hunfunded.balances.symm.trans hpair)
    rw [← hzero] at hpos
    cases side
    · exact absurd hpos (lt_irrefl 0)
    · exact absurd hpos (lt_irrefl 0)
  · exact hfunded

/-! ### What the calls that move tokens book -/

/-- Adding to one side of two balances. -/
theorem addTo_toList (pair : Pair ℤ) (side : Side) (amount : ℤ) :
    addTo pair.toList side amount = (pair.set side (pair.get side + amount)).toList := by
  cases side <;> rfl

/-- The balances after a swap: the offer has come in, and the output and the maker's fee have gone
out. -/
def afterSwap (pair : Pair ℤ) (receipt : TradeReceipt) : Pair ℤ :=
  (pair.set receipt.side (pair.get receipt.side + receipt.amount)).set receipt.side.other
    (pair.get receipt.side.other - (receipt.quote.output + receipt.quote.makerFee))

/-- The balances after a withdrawal. -/
def afterWithdrawal (pair : Pair ℤ) (refunds : Pair ℕ) : Pair ℤ :=
  ⟨pair.base - refunds.base, pair.quote - refunds.quote⟩

/-- A swap finds two positive balances, and is booked with the pool that it leaves. -/
theorem exists_of_swap {offer : Offer} {amount now : ℤ} {terms : SwapTerms}
    {receipt : TradeReceipt} (h : l.swap offer amount now terms = .ok (receipt, next)) :
    ∃ pool pair, Nonempty (Pool.SwapTrace l.pool l.balances offer amount l.supply now terms receipt
        pool) ∧
      l.balances = Pair.toList pair ∧ (∀ side, 0 < pair.get side) ∧ 0 < receipt.amount ∧
      next = ⟨pool, (afterSwap pair receipt).toList, l.supply⟩ := by
  simp only [swap, bind_eq_ok, pure_eq_ok, Prod.exists, Prod.mk.injEq] at h
  obtain ⟨_, pool, hpool, rfl, rfl⟩ := h
  obtain ⟨trace⟩ := Pool.nonempty_swapTrace hpool
  obtain ⟨pair, hpair, hamount, -, hraw⟩ := Pool.exists_of_liftOffer trace.hlift
  refine ⟨pool, pair, ⟨trace⟩, hpair, fun side ↦ (hraw side).1, ?_, ?_⟩
  · rw [trace.hamount]
    exact hamount
  · rw [hpair, addTo_toList, addTo_toList, Pair.get_set_other, afterSwap, trace.hamount]
    rfl

/-- A deposit is booked with the pool that it leaves. -/
theorem exists_of_deposit {amounts : List ℤ} {now : ℤ} {receipt : DepositReceipt}
    (h : l.deposit amounts now = .ok (receipt, next)) :
    ∃ pool, ∃ trace : Pool.DepositTrace l.pool l.balances amounts l.supply now receipt pool,
      Pool.DepositEnds l.pool now trace.shares trace.quote receipt pool ∧
      next = ⟨pool, l.balances.zipWith (· + ·) amounts,
        l.supply + receipt.minted + receipt.locked⟩ := by
  simp only [deposit, bind_eq_ok, pure_eq_ok, Prod.exists, Prod.mk.injEq] at h
  obtain ⟨_, pool, hpool, rfl, rfl⟩ := h
  obtain ⟨trace, hends⟩ := Pool.exists_depositTrace hpool
  exact ⟨pool, trace, hends, rfl⟩

/-- A withdrawal is booked with the pool that it leaves. -/
theorem exists_of_withdraw {burn now : ℤ} {choice : List ℤ} {refunds : Pair ℕ}
    (h : l.withdraw burn now choice = .ok (refunds, next)) :
    ∃ pool pair, Nonempty (Pool.WithdrawalTrace l.pool l.balances burn l.supply now refunds pool) ∧
      l.balances = Pair.toList pair ∧
      next = ⟨pool, (afterWithdrawal pair refunds).toList, l.supply - burn⟩ := by
  simp only [withdraw, bind_eq_ok, pure_eq_ok, Prod.exists, Prod.mk.injEq] at h
  obtain ⟨_, pool, hpool, rfl, rfl⟩ := h
  obtain ⟨trace⟩ := Pool.nonempty_withdrawalTrace hpool
  obtain ⟨pair, hpair, -⟩ := Pool.exists_of_lift trace.hpools
  refine ⟨pool, pair, ⟨trace⟩, hpair, ?_⟩
  rw [hpair, addTo_toList, addTo_toList]
  rfl

/-! ### Every call keeps the invariant -/

/-- A swap keeps a ledger well-formed: it comes from a funded one, and neither the offer nor the
payout empties a side. -/
theorem wellFormed_swap {offer : Offer} {amount now : ℤ} {terms : SwapTerms}
    {receipt : TradeReceipt} (hl : l.WellFormed)
    (h : l.swap offer amount now terms = .ok (receipt, next)) : next.WellFormed := by
  obtain ⟨pool, pair, ⟨trace⟩, hpair, hpos, hamount, rfl⟩ := exists_of_swap h
  have hfunded : l.Funded := hl.funded_of_balance hpair (hpos .base)
  have hadvances : l.pool.Advances pool := trace.advances
  have hpayout := trace.payout_lt hpair
  have hoffered := hpos receipt.side
  refine ⟨.inr ⟨⟨_, rfl, fun side ↦ ?_⟩, hfunded.supply, ?_⟩, hadvances.inRange hl.pool⟩
  · rcases receipt.side.eq_or_eq_other side with rfl | rfl
    · rw [afterSwap, Pair.get_set_of_other, Pair.get_set_self]
      omega
    · rw [afterSwap, Pair.get_set_self]
      omega
  · exact Nat.le_trans hfunded.profit hadvances.profit

/-- The first deposit of a well-formed ledger finds no profit. -/
theorem WellFormed.profit_eq_zero_of_supply (hl : l.WellFormed) (hsupply : l.supply = 0) :
    l.pool.state.price.profit = .zero := by
  rcases hl.books with hunfunded | hfunded
  · exact hunfunded.profit
  · have := hfunded.supply
    omega

/-- A deposit into a well-formed ledger lets the prices advance. -/
theorem advances_of_deposit {amounts : List ℤ} {now : ℤ} {receipt : DepositReceipt} {pool : Pool}
    (hl : l.WellFormed)
    (trace : Pool.DepositTrace l.pool l.balances amounts l.supply now receipt pool)
    (hends : Pool.DepositEnds l.pool now trace.shares trace.quote receipt pool) :
    l.pool.Advances pool := by
  refine hends.advances fun hfirst ↦ ?_
  rw [hl.profit_eq_zero_of_supply (trace.isFirst_iff.mp hfirst)]
  exact Nat.zero_le _

/-- After a deposit into a well-formed ledger the profit counter has started: the first deposit
starts it, and a later one finds it started. -/
theorem one_le_profit_of_deposit {amounts : List ℤ} {now : ℤ} {receipt : DepositReceipt}
    {pool : Pool} (hl : l.WellFormed)
    (trace : Pool.DepositTrace l.pool l.balances amounts l.supply now receipt pool)
    (hends : Pool.DepositEnds l.pool now trace.shares trace.quote receipt pool) :
    Decimal.one ≤ pool.state.price.profit := by
  by_cases hzero : l.supply = 0
  · rw [(hends.of_first (trace.isFirst_iff.mpr hzero)).2.2]
    exact Nat.le_refl _
  · have hsupply : 0 < l.supply := lt_of_le_of_ne trace.supply_nonneg (Ne.symm hzero)
    exact Nat.le_trans (hl.funded_of_supply hsupply).profit
      (advances_of_deposit hl trace hends).profit

/-- A deposit keeps a ledger well-formed, and makes it funded. -/
theorem wellFormed_deposit {amounts : List ℤ} {now : ℤ} {receipt : DepositReceipt}
    (hl : l.WellFormed) (h : l.deposit amounts now = .ok (receipt, next)) : next.WellFormed := by
  obtain ⟨pool, trace, hends, rfl⟩ := exists_of_deposit h
  have hadvances : l.pool.Advances pool := advances_of_deposit hl trace hends
  have hprofit : Decimal.one ≤ pool.state.price.profit := one_le_profit_of_deposit hl trace hends
  exact ⟨.inr ⟨trace.exists_sum, trace.one_le_supply hends, hprofit⟩, hadvances.inRange hl.pool⟩

/-- A withdrawal keeps a ledger well-formed. -/
theorem wellFormed_withdraw {burn now : ℤ} {choice : List ℤ} {refunds : Pair ℕ}
    (hl : l.WellFormed) (h : l.withdraw burn now choice = .ok (refunds, next)) :
    next.WellFormed := by
  obtain ⟨pool, pair, ⟨trace⟩, hpair, rfl⟩ := exists_of_withdraw h
  obtain ⟨hsign, hburn⟩ := trace.burn_lt
  have hfunded : l.Funded := hl.funded_of_supply (lt_of_le_of_lt hsign hburn)
  have hadvances : l.pool.Advances pool := trace.advances
  have hrefund := trace.refund_lt hpair
  refine ⟨.inr ⟨⟨_, rfl, fun side ↦ ?_⟩, ?_, ?_⟩, hadvances.inRange hl.pool⟩
  · cases side
    · have hbase : (refunds.base : ℤ) < pair.base := hrefund .base
      show 1 ≤ pair.base - refunds.base
      omega
    · have hquote : (refunds.quote : ℤ) < pair.quote := hrefund .quote
      show 1 ≤ pair.quote - refunds.quote
      omega
  · show 1 ≤ l.supply - burn
    omega
  · exact Nat.le_trans hfunded.profit hadvances.profit

/-- What a call comes to: one of the three operations that move tokens, or one that leaves the books
and the prices alone. -/
inductive CallEnds (l : Ledger) : Call → Receipt → Ledger → Prop
  | deposit {amounts : List ℤ} {now : ℤ} {receipt : DepositReceipt} {next : Ledger}
      (hdeposit : l.deposit amounts now = .ok (receipt, next)) :
      CallEnds l (.deposit amounts now) (.deposit receipt) next
  | swap {offer : Offer} {amount now : ℤ} {terms : SwapTerms} {receipt : TradeReceipt}
      {next : Ledger} (hswap : l.swap offer amount now terms = .ok (receipt, next)) :
      CallEnds l (.swap offer amount now terms) (.swap receipt) next
  | withdraw {burn now : ℤ} {choice : List ℤ} {refunds : Pair ℕ} {next : Ledger}
      (hwithdraw : l.withdraw burn now choice = .ok (refunds, next)) :
      CallEnds l (.withdraw burn now choice) (.refunds refunds) next
  | kept {call : Call} {pool : Pool} (hkept : l.pool.KeepsPrices pool) :
      CallEnds l call .done { l with pool }

/-- Every call that is carried out ends in one of these ways. -/
theorem callEnds_of_apply {call : Call} {receipt : Receipt}
    (h : l.apply call = .ok (receipt, next)) : CallEnds l call receipt next := by
  cases call with
  | deposit amounts now =>
    simp only [apply, bind_eq_ok, pure_eq_ok, Prod.exists, Prod.mk.injEq] at h
    obtain ⟨_, _, hdeposit, rfl, rfl⟩ := h
    exact .deposit hdeposit
  | swap offer amount now terms =>
    simp only [apply, bind_eq_ok, pure_eq_ok, Prod.exists, Prod.mk.injEq] at h
    obtain ⟨_, _, hswap, rfl, rfl⟩ := h
    exact .swap hswap
  | withdraw burn now choice =>
    simp only [apply, bind_eq_ok, pure_eq_ok, Prod.exists, Prod.mk.injEq] at h
    obtain ⟨_, _, hwithdraw, rfl, rfl⟩ := h
    exact .withdraw hwithdraw
  | promote request now =>
    simp only [apply, bind_eq_ok, pure_eq_ok, Prod.mk.injEq] at h
    obtain ⟨_, hpool, rfl, rfl⟩ := h
    exact .kept (Pool.keepsPrices_promote hpool)
  | stopPromotion now =>
    simp only [apply, bind_eq_ok, pure_eq_ok, Prod.mk.injEq] at h
    obtain ⟨_, hpool, rfl, rfl⟩ := h
    exact .kept (Pool.keepsPrices_stopPromotion hpool)
  | updateParams update =>
    simp only [apply, bind_eq_ok, pure_eq_ok, Prod.mk.injEq] at h
    obtain ⟨_, hpool, rfl, rfl⟩ := h
    exact .kept (Pool.keepsPrices_updateParams hpool)
  | accumulate now price =>
    simp only [apply, bind_eq_ok, pure_eq_ok, Prod.mk.injEq] at h
    obtain ⟨_, hpool, rfl, rfl⟩ := h
    exact .kept (Pool.keepsPrices_accumulate hpool)

/-- A call that is carried out keeps a ledger well-formed. -/
theorem wellFormed_apply {call : Call} {receipt : Receipt} (hl : l.WellFormed)
    (h : l.apply call = .ok (receipt, next)) : next.WellFormed := by
  cases callEnds_of_apply h with
  | deposit hdeposit => exact wellFormed_deposit hl hdeposit
  | swap hswap => exact wellFormed_swap hl hswap
  | withdraw hwithdraw => exact wellFormed_withdraw hl hwithdraw
  | kept hkept => exact hl.of_keepsPrices hkept

/-- A step leaves the ledger that its call comes to, or the same one. -/
theorem step_eq (l : Ledger) (call : Call) :
    (∃ receipt, l.apply call = .ok (receipt, l.step call)) ∨ l.step call = l := by
  unfold step
  cases happly : l.apply call with
  | error fault => exact .inr rfl
  | ok result => exact .inl ⟨result.1, rfl⟩

/-- A step keeps a ledger well-formed, whether its call is carried out or refused. -/
theorem wellFormed_step (hl : l.WellFormed) (call : Call) : (l.step call).WellFormed := by
  rcases l.step_eq call with ⟨receipt, happly⟩ | hsame
  · exact wellFormed_apply hl happly
  · rw [hsame]
    exact hl

/-- A run keeps a ledger well-formed. -/
theorem wellFormed_run (hl : l.WellFormed) (calls : List Call) : (l.run calls).WellFormed := by
  -- The invariant has to hold of the ledger that the first call leaves, so `l` is generalized.
  induction calls generalizing l with
  | nil => exact hl
  | cons call calls ih => exact ih (wellFormed_step hl call)

/-- Every state that a pool can reach from its creation is solvent and in range. -/
theorem wellFormed_of_create {sources : List AssetSource} {initial : InitialParams} {now : ℤ}
    {token : String} {pool : Pool} (h : Pool.create sources initial now token = .ok pool)
    (calls : List Call) :
    ((ofPool pool).run calls).WellFormed ∧
      ∀ t, (((ofPool pool).run calls).pool.state.promotion.effective t).InRange := by
  have hrun : ((ofPool pool).run calls).WellFormed := wellFormed_run (wellFormed_ofPool h) calls
  exact ⟨hrun, fun t ↦ Promotion.inRange_effective hrun.pool.promotion t⟩

/-- The usual pool after a first deposit, a swap, a withdrawal of half of the shares and an attempt
to withdraw the other half and more. -/
theorem wellFormed_usual :
    Pool.create [.known ⟨"uusd", 6⟩, .known ⟨"uluna", 6⟩] Pool.usualParams 0 "shares" =
        .ok Pool.usual ∧
      ((ofPool Pool.usual).run [.deposit [1_000_000_000, 1_000_000_000] 0,
        .swap (.index 0) 1_000_000 600 ⟨none, none, none⟩, .withdraw 500_000_000 1200 [],
        .withdraw 500_000_001 1800 []]).WellFormed ∧
      ((ofPool Pool.usual).run [.deposit [1_000_000_000, 1_000_000_000] 0,
        .swap (.index 0) 1_000_000 600 ⟨none, none, none⟩, .withdraw 500_000_000 1200 [],
        .withdraw 500_000_001 1800 []]).supply = 500_000_000 :=
  ⟨Pool.create_usual, (wellFormed_of_create Pool.create_usual _).1, by decide +kernel⟩

end Ledger

end ConcentratedPool
