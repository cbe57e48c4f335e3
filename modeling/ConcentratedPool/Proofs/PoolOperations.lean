import ConcentratedPool.Pool.Ledger
import ConcentratedPool.Proofs.PriceUpdate

/-!
# What the operations of a pool do

One statement for each operation says what has to hold for it to be carried out and what it leaves.
Swaps, deposits and withdrawals run through many checked steps; their intermediate results are kept
in `Pool.SwapTrace`, `Pool.DepositTrace` and `Pool.WithdrawalTrace`, which every operation that is
carried out has (`Pool.nonempty_swapTrace` and its two siblings). Later statements read what they
need off a trace and never open an operation.

Token amounts are lifted exactly: `Pool.exists_of_lift` gives the two amounts behind two lifted
decimals, in units of `Pool.unit`.
-/

set_option autoImplicit false
set_option relaxedAutoImplicit false

namespace ConcentratedPool

/-- A side is the one or the opposite one. -/
theorem Side.eq_or_eq_other (side other : Side) : other = side ∨ other = side.other := by
  cases side <;> cases other <;> simp [Side.other]

namespace Pair

variable {α : Type}

/-- Replacing the opposite side leaves a side alone. -/
theorem get_set_of_other (p : Pair α) (side : Side) (a : α) :
    (p.set side.other a).get side = p.get side := by
  cases side <;> rfl

/-- A list of two is the list of a pair. -/
theorem ofList?_eq_some {xs : List α} {p : Pair α} : ofList? xs = some p ↔ xs = p.toList := by
  constructor
  · intro h
    unfold ofList? at h
    split at h
    · cases h
      rfl
    · cases h
  · rintro rfl
    exact ofList?_toList p

/-- A pair is determined by its list. -/
theorem toList_inj {p q : Pair α} : p.toList = q.toList ↔ p = q := by
  rw [← ofList?_eq_some, ofList?_toList, Option.some.injEq, eq_comm]

/-- A test fails of both sides exactly when it fails of each. -/
theorem any_eq_false {test : α → Bool} {p : Pair α} :
    p.any test = false ↔ ∀ side, test (p.get side) = false := by
  constructor
  · intro h side
    obtain ⟨hbase, hquote⟩ := Bool.or_eq_false_iff.mp h
    cases side
    · exact hbase
    · exact hquote
  · intro h
    exact Bool.or_eq_false_iff.mpr ⟨h .base, h .quote⟩

end Pair

namespace Pool

variable {p next : Pool} {balances : List ℤ} {supply now : ℤ}

/-! ### Amounts -/

/-- The number of units in one token unit of the asset on a side. -/
def unit (p : Pool) (side : Side) : ℕ := Decimal.tokenUnit (p.precision side)

/-- Amounts that can be lifted are two, and neither is negative. -/
theorem exists_of_lift {amounts : List ℤ} {decimals : Pair Decimal}
    (h : p.lift amounts = .ok decimals) :
    ∃ pair : Pair ℤ, amounts = pair.toList ∧
      ∀ side, 0 ≤ pair.get side ∧ ((decimals.get side).raw : ℤ) = pair.get side * p.unit side := by
  unfold lift at h
  split at h
  · cases h
  next pair hpair =>
  simp only [refuse_eq_ok, bind_eq_ok, pure_eq_ok, Bool.not_eq_true, Decimal.ofTokens_eq_ok] at h
  obtain ⟨hsign, base, ⟨-, hbase⟩, quote, ⟨-, hquote⟩, rfl⟩ := h
  refine ⟨pair, Pair.ofList?_eq_some.mp hpair, fun side ↦ ⟨?_, ?_⟩⟩
  · simpa using Pair.any_eq_false.mp hsign side
  · cases side
    · exact hbase
    · exact hquote

/-- Where token amounts are lifted, no asset has more places than decimals have. -/
theorem precision_le_of_lift {amounts : List ℤ} {decimals : Pair Decimal}
    (h : p.lift amounts = .ok decimals) (side : Side) : p.precision side ≤ Decimal.places := by
  unfold lift at h
  split at h
  · cases h
  · simp only [refuse_eq_ok, bind_eq_ok, pure_eq_ok, Decimal.ofTokens_eq_ok] at h
    obtain ⟨-, _, ⟨hbase, -⟩, _, ⟨hquote, -⟩, -⟩ := h
    cases side
    · exact hbase
    · exact hquote

/-- Amounts that are not negative are lifted to the decimals that they are worth. -/
theorem lift_toList {pair : Pair ℤ} {decimals : Pair Decimal}
    (hprecision : ∀ side, p.precision side ≤ Decimal.places) (hsign : ∀ side, 0 ≤ pair.get side)
    (hraw : ∀ side, ((decimals.get side).raw : ℤ) = pair.get side * p.unit side) :
    p.lift pair.toList = .ok decimals := by
  have hany : pair.any (· < 0) = false := by
    refine Pair.any_eq_false.mpr fun side ↦ ?_
    simpa using hsign side
  unfold lift
  simp only [Pair.ofList?_toList, hany, refuse_eq_ok, bind_eq_ok, pure_eq_ok,
    Decimal.ofTokens_eq_ok]
  exact ⟨by simp, decimals.base, ⟨hprecision .base, hraw .base⟩, decimals.quote,
    ⟨hprecision .quote, hraw .quote⟩, rfl⟩

/-- Shares are lifted exactly, and not if they are negative. -/
theorem liftShares_eq_ok {amount : ℤ} {shares : Decimal} (h : liftShares amount = .ok shares) :
    0 ≤ amount ∧ (shares.raw : ℤ) = amount * Decimal.tokenUnit Limits.sharePrecision := by
  unfold liftShares at h
  split_ifs at h with hsign
  exact ⟨not_lt.mp hsign, (Decimal.ofTokens_eq_ok.mp h).2⟩

/-! ### Prices -/

/-- An accumulation changes the clock and the accumulated prices only, and keeps these below their
modulus. -/
theorem exists_eq_of_accumulate {price : Decimal} (h : p.accumulate now price = .ok next) :
    ∃ accumulated cumulative, next = { p with accumulated, cumulative } ∧
      (cumulative = p.cumulative ∨ ∀ side, cumulative.get side < Limits.cumulativeModulus) := by
  unfold accumulate at h
  rcases branch_eq_ok.mp h with ⟨-, hsame⟩ | ⟨-, h⟩
  · obtain rfl := pure_eq_ok.mp hsame
    exact ⟨p.accumulated, p.cumulative, rfl, .inl rfl⟩
  · simp only [bind_eq_ok, pure_eq_ok] at h
    obtain ⟨_, _, base, ⟨_, _, rfl⟩, quote, ⟨_, _, rfl⟩, rfl⟩ := h
    refine ⟨now, _, rfl, .inr fun side ↦ ?_⟩
    cases side
    · exact Nat.mod_lt _ (by decide)
    · exact Nat.mod_lt _ (by decide)

/-- A settled price is the outcome of a price update that was not refused. -/
theorem exists_eq_of_settlePrice {shares last : Decimal} {xs : Pair Decimal} {moved : Bool}
    (h : p.settlePrice now shares xs last = .ok (next, moved)) :
    ∃ price, next = { p with state.price := price } ∧
      p.state.price.update p.params (p.state.promotion.effective now) now shares xs.toList last =
        (price, .ok moved) := by
  simp only [settlePrice, PoolState.updatePrice, bind_eq_ok, pure_eq_ok, Prod.mk.injEq] at h
  obtain ⟨_, houtcome, rfl, rfl⟩ := h
  exact ⟨_, rfl, Prod.ext rfl houtcome⟩

/-! ### Swaps -/

/-- A swap that passes the first check offers something, and both balances of the pool are there. -/
theorem of_checkOffer {pools : Pair Decimal} {offer : Decimal}
    (h : checkOffer pools offer = .ok ()) : offer.raw ≠ 0 ∧ ∀ side, (pools.get side).raw ≠ 0 := by
  simp only [checkOffer, refuse_eq_ok, Decimal.isZero_eq_true] at h
  obtain ⟨hoffer, h⟩ := h
  rcases branch_eq_ok.mp h with ⟨-, hthrow⟩ | ⟨hpools, -⟩
  · exact absurd hthrow throw_ne_ok
  rw [Bool.not_eq_true, Pair.any_eq_false] at hpools
  exact ⟨hoffer, fun side ↦ Decimal.isZero_eq_false.mp (hpools side)⟩

/-- An amount of tokens whose lifted value is there is itself there. -/
theorem amount_pos_of_lifted {amount : ℤ} {precision : ℤ} {dec : Decimal}
    (hraw : (dec.raw : ℤ) = amount * Decimal.tokenUnit precision) (hne : dec.raw ≠ 0) :
    0 < amount := by
  have hunit : (0 : ℤ) < Decimal.tokenUnit precision := by
    exact_mod_cast Decimal.tokenUnit_pos precision
  have hpos : (0 : ℤ) < amount * Decimal.tokenUnit precision := by
    rw [← hraw]
    exact_mod_cast Nat.pos_of_ne_zero hne
  exact (mul_pos_iff_of_pos_right hunit).mp hpos

/-- An offer that a pool can price is positive, and so are both balances. -/
theorem exists_of_liftOffer {side : Side} {amount : ℤ} {pools : Pair Decimal} {dec : Decimal}
    (h : p.liftOffer balances side amount = .ok (pools, dec)) :
    ∃ pair : Pair ℤ, balances = pair.toList ∧ 0 < amount ∧ (dec.raw : ℤ) = amount * p.unit side ∧
      ∀ side, 0 < pair.get side ∧ ((pools.get side).raw : ℤ) = pair.get side * p.unit side := by
  simp only [liftOffer, bind_eq_ok, pure_eq_ok, Prod.mk.injEq, Decimal.ofTokens_eq_ok] at h
  obtain ⟨_, hlift, _, ⟨-, hdec⟩, _, hcheck, rfl, rfl⟩ := h
  obtain ⟨pair, hpair, hraw⟩ := exists_of_lift hlift
  obtain ⟨hoffer, hpools⟩ := of_checkOffer hcheck
  exact ⟨pair, hpair, amount_pos_of_lifted hdec hoffer, hdec, fun side ↦
    ⟨amount_pos_of_lifted (hraw side).2 (hpools side), (hraw side).2⟩⟩

/-- The intermediate results of a swap that was carried out. -/
structure SwapTrace (p : Pool) (balances : List ℤ) (offer : Offer) (amount supply now : ℤ)
    (terms : SwapTerms) (receipt : TradeReceipt) (next : Pool) where
  pools : Pair Decimal
  dec : Decimal
  quote : SwapQuote
  after : Pair Decimal
  xs : Pair Decimal
  shares : Decimal
  price : PriceState
  hside : p.side offer = .ok receipt.side
  hlift : p.liftOffer balances receipt.side amount = .ok (pools, dec)
  hquote : quoteSwap p.state p.params pools dec receipt.side.other now
    (terms.makerShare.getD .zero) = .ok quote
  hafter : balancesAfter pools receipt.side dec quote = .ok after
  hspread : checkSpread terms.belief terms.maxSpread dec quote.output quote.spread = .ok ()
  hprices : quote.prices dec receipt.side = .ok (receipt.lastPrice, receipt.realPrice)
  hscaled : scaledBalances p.state.price.scale after = .ok xs
  hshares : liftShares supply = .ok shares
  hupdate : p.state.price.update p.params (p.state.promotion.effective now) now shares xs.toList
    receipt.lastPrice = (price, .ok receipt.moved)
  haccumulate : accumulate { p with state.price := price } now receipt.realPrice = .ok next
  hlower : p.lowerQuote receipt.side.other quote = .ok receipt.quote
  hamount : receipt.amount = amount

/-- A swap that was carried out has a trace. -/
theorem nonempty_swapTrace {offer : Offer} {amount : ℤ} {terms : SwapTerms}
    {receipt : TradeReceipt}
    (h : p.swap balances offer amount supply now terms = .ok (receipt, next)) :
    Nonempty (SwapTrace p balances offer amount supply now terms receipt next) := by
  simp only [swap, bind_eq_ok, pure_eq_ok, Prod.exists, Prod.mk.injEq] at h
  obtain ⟨side, hside, pools, dec, hlift, quote, hquote, after, hafter, _, hspread, lastPrice,
    realPrice, hprices, xs, hscaled, shares, hshares, settled, moved, hsettle, _, haccumulate,
    lowered, hlower, rfl, rfl⟩ := h
  obtain ⟨price, rfl, hupdate⟩ := exists_eq_of_settlePrice hsettle
  exact ⟨⟨pools, dec, quote, after, xs, shares, price, hside, hlift, hquote, hafter, hspread,
    hprices, hscaled, hshares, hupdate, haccumulate, hlower, rfl⟩⟩

/-! ### Deposits -/

/-- A deposit that is priced is positive on both sides. It is the first one exactly when there are
no shares. -/
theorem of_quoteDeposit {state : PoolState} {params : PoolParams} {pools deposits : Pair Decimal}
    {shares : Decimal} {q : DepositQuote}
    (h : quoteDeposit state params pools deposits shares now = .ok q) :
    deposits.any Decimal.isZero = false ∧ (q.isFirst = true ↔ shares.raw = 0) := by
  simp only [quoteDeposit, refuse_eq_ok, bind_eq_ok, Bool.not_eq_true] at h
  obtain ⟨hdeposits, _, -, _, -, _, -, _, -, _, -, h⟩ := h
  refine ⟨hdeposits, ?_⟩
  rcases branch_eq_ok.mp h with ⟨hzero, hfirst⟩ | ⟨hzero, hlater⟩
  · simp only [bind_eq_ok, pure_eq_ok] at hfirst
    obtain ⟨_, _, rfl⟩ := hfirst
    simpa using hzero
  · simp only [refuse_eq_ok, bind_eq_ok, pure_eq_ok] at hlater
    obtain ⟨-, _, -, _, -, _, -, _, -, _, -, _, -, _, -, _, -, _, -, -, _, -, rfl⟩ := hlater
    simpa using hzero

/-- The intermediate results of a deposit that was carried out. -/
structure DepositTrace (p : Pool) (balances amounts : List ℤ) (supply now : ℤ)
    (receipt : DepositReceipt) (next : Pool) where
  pools : Pair Decimal
  deposits : Pair Decimal
  shares : Decimal
  quote : DepositQuote
  hpools : p.lift balances = .ok pools
  hdeposits : p.lift amounts = .ok deposits
  hshares : liftShares supply = .ok shares
  hquote : quoteDeposit p.state p.params pools deposits shares now = .ok quote
  hminted : quote.share.toTokens Limits.sharePrecision = .ok receipt.minted

/-- What a deposit leaves, by whether it is the first one and whether it amounts to a trade. -/
inductive DepositEnds (p : Pool) (now : ℤ) (shares : Decimal) (quote : DepositQuote) :
    DepositReceipt → Pool → Prop
  | first {receipt : DepositReceipt} {virtualPrice : Decimal} (hfirst : quote.isFirst = true)
      (hlocked : receipt.locked = Limits.lockedShares) (hmoved : receipt.moved = false) :
      DepositEnds p now shares quote receipt
        { p with state.price :=
          { p.state.price with capital := quote.capital, profit := .one, virtualPrice } }
  | even {receipt : DepositReceipt} (hfirst : quote.isFirst = false) (hlocked : receipt.locked = 0)
      (hmoved : receipt.moved = false) :
      DepositEnds p now shares quote receipt (p.withCapital quote.capital)
  | uneven {receipt : DepositReceipt} {next : Pool} {last minted total : Decimal}
      {price : PriceState} (hfirst : quote.isFirst = false) (hlocked : receipt.locked = 0)
      (hminted : liftShares receipt.minted = .ok minted)
      (htotal : (shares + minted : Except Fault Decimal) = .ok total)
      (hupdate : p.state.price.update p.params (p.state.promotion.effective now) now total
        quote.balances.toList last = (price, .ok receipt.moved))
      (haccumulate : accumulate { p with state.price := price } now last = .ok next) :
      DepositEnds p now shares quote receipt next

/-- A deposit that was carried out has a trace, and ends in one of these ways. -/
theorem exists_depositTrace {amounts : List ℤ} {receipt : DepositReceipt}
    (h : p.deposit balances amounts supply now = .ok (receipt, next)) :
    ∃ trace : DepositTrace p balances amounts supply now receipt next,
      DepositEnds p now trace.shares trace.quote receipt next := by
  simp only [deposit, bind_eq_ok] at h
  obtain ⟨pools, hpools, deposits, hdeposits, shares, hshares, quote, hquote, minted, hminted, h⟩ :=
    h
  rcases branch_eq_ok.mp h with ⟨hfirst, h⟩ | ⟨hfirst, h⟩
  · simp only [startProfit, bind_eq_ok, pure_eq_ok, Prod.mk.injEq] at h
    obtain ⟨_, ⟨_, _, virtualPrice, _, rfl⟩, rfl, rfl⟩ := h
    exact ⟨⟨pools, deposits, shares, quote, hpools, hdeposits, hshares, hquote, hminted⟩,
      .first hfirst rfl rfl⟩
  rw [Bool.not_eq_true] at hfirst
  split at h
  · simp only [pure_eq_ok, Prod.mk.injEq] at h
    obtain ⟨rfl, rfl⟩ := h
    exact ⟨⟨pools, deposits, shares, quote, hpools, hdeposits, hshares, hquote, hminted⟩,
      .even hfirst rfl rfl⟩
  · simp only [bind_eq_ok, pure_eq_ok, Prod.exists, Prod.mk.injEq] at h
    obtain ⟨_, hlifted, _, htotal, _, _, hsettle, _, haccumulate, rfl, rfl⟩ := h
    obtain ⟨price, rfl, hupdate⟩ := exists_eq_of_settlePrice hsettle
    exact ⟨⟨pools, deposits, shares, quote, hpools, hdeposits, hshares, hquote, hminted⟩,
      .uneven hfirst rfl hlifted htotal hupdate haccumulate⟩

/-! ### Withdrawals -/

/-- All shares stand for the whole pool. -/
theorem shareRatio_self {shares ratio : Decimal} (hne : shares.raw ≠ 0)
    (h : shareRatio shares shares = .ok ratio) : ratio.raw = Decimal.scale := by
  unfold shareRatio at h
  rw [if_neg (Decimal.isZero_eq_true.not.mpr hne), Decimal.div_eq_ok] at h
  rw [h.2, Nat.mul_div_cancel_left _ (Nat.pos_of_ne_zero hne)]

/-- A withdrawal takes less than all shares, and leaves something of both balances. Where all shares
were burned, the refunds would be the balances. -/
theorem of_quoteWithdrawal {state : PoolState} {pools refunds : Pair Decimal}
    {amount shares capital : Decimal}
    (h : quoteWithdrawal state pools amount shares now = .ok (refunds, capital)) :
    amount.raw < shares.raw ∧ ∀ side, (refunds.get side).raw < (pools.get side).raw := by
  simp only [quoteWithdrawal, shareOfPool, refuse_eq_ok, bind_eq_ok, pure_eq_ok, Bool.not_eq_true,
    Prod.mk.injEq, Decimal.isZero_eq_false, Decimal.lt_def, not_lt, Decimal.sub_eq_ok,
    Decimal.mul_eq_ok] at h
  obtain ⟨hamount, hsupply, _, ⟨ratio, hratio, refundBase, hrefundBase, refundQuote, -, rfl⟩, base,
    hbase, quote, hquote, value, hvalue, hleft, _, -, _, -, rfl, rfl⟩ := h
  have hbaseLeft : base.raw ≠ 0 := Decimal.isZero_eq_false.mp (Pair.any_eq_false.mp hleft .base)
  have hvalueLeft : value.raw ≠ 0 := Decimal.isZero_eq_false.mp (Pair.any_eq_false.mp hleft .quote)
  have hquoteLeft : quote.raw ≠ 0 := by
    intro hzero
    rw [hzero, Nat.zero_mul, Nat.zero_div] at hvalue
    exact hvalueLeft hvalue
  have hbasePos : refundBase.raw < pools.base.raw := by
    simp only at hbase
    omega
  constructor
  · -- Burning all shares would have a ratio of exactly one and refund the whole base balance.
    refine lt_of_le_of_ne hsupply fun hall ↦ ?_
    obtain rfl := Decimal.ext hall
    rw [shareRatio_self hamount hratio, Nat.mul_div_cancel _ Decimal.scale_pos] at hrefundBase
    omega
  · intro side
    cases side with
    | base => exact hbasePos
    | quote =>
      simp only at hquote
      change refundQuote.raw < pools.quote.raw
      omega

/-- The intermediate results of a withdrawal that was carried out. -/
structure WithdrawalTrace (p : Pool) (balances : List ℤ) (burn supply now : ℤ)
    (refunds : Pair ℕ) (next : Pool) where
  pools : Pair Decimal
  amount : Decimal
  shares : Decimal
  decimals : Pair Decimal
  capital : Decimal
  hpools : p.lift balances = .ok pools
  hamount : liftShares burn = .ok amount
  hshares : liftShares supply = .ok shares
  hquote : quoteWithdrawal p.state pools amount shares now = .ok (decimals, capital)
  hlower : p.lower decimals = .ok refunds
  hnext : next = p.withCapital capital

/-- A withdrawal that was carried out has a trace. -/
theorem nonempty_withdrawalTrace {burn : ℤ} {choice : List ℤ} {refunds : Pair ℕ}
    (h : p.withdraw balances burn supply now choice = .ok (refunds, next)) :
    Nonempty (WithdrawalTrace p balances burn supply now refunds next) := by
  simp only [withdraw, refuse_eq_ok, bind_eq_ok, pure_eq_ok, Prod.exists, Prod.mk.injEq] at h
  obtain ⟨-, pools, hpools, amount, hamount, shares, hshares, decimals, capital, hquote, _, hlower,
    rfl, rfl⟩ := h
  exact ⟨⟨pools, amount, shares, decimals, capital, hpools, hamount, hshares, hquote, hlower, rfl⟩⟩

/-- Decimals are lowered to token amounts that are worth no more. -/
theorem lower_mul_unit_le {decimals : Pair Decimal} {amounts : Pair ℕ}
    (h : p.lower decimals = .ok amounts) (side : Side) :
    amounts.get side * p.unit side ≤ (decimals.get side).raw := by
  simp only [lower, bind_eq_ok, pure_eq_ok, Decimal.toTokens_eq_ok] at h
  obtain ⟨_, ⟨-, rfl⟩, _, ⟨-, rfl⟩, rfl⟩ := h
  cases side
  · exact Nat.div_mul_le_self _ _
  · exact Nat.div_mul_le_self _ _

end Pool

end ConcentratedPool
