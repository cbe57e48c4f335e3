import ConcentratedPool.Proofs.FloatRange
import ConcentratedPool.Proofs.SimulationBooks
import ConcentratedPool.Report.Row

/-!
# The results of a simulation

The results of a run are floats, and a whole number that is too large has none. The amounts in the
records of a simulation are never that large (`Simulation.Sized`): each of them was lifted to a
decimal or lowered from one, and only the maker's fees add up, by less than one decimal for each
step. The first deposit, a trade of any strategy and a snapshot keep it so (`Simulation.sized_seed`,
`Simulation.sized_trade`, `Simulation.sized_record`). So the only thing that can be missing where
the shares can be paid out is the price that they are valued at (`Simulation.exists_outcome`), and
every snapshot has its row (`Simulation.exists_rows`).
-/

set_option autoImplicit false
set_option relaxedAutoImplicit false

namespace ConcentratedPool

/-! ### Amounts and decimals -/

/-- A token amount that was lowered from a decimal is no larger than decimals are. -/
theorem Decimal.toTokens_le {a : Decimal} {precision : ℤ} {n : ℕ}
    (h : a.toTokens precision = .ok n) : n ≤ maxRaw := by
  obtain ⟨-, rfl⟩ := toTokens_eq_ok.mp h
  exact (Nat.div_le_self _ _).trans a.raw_le

/-- A token amount that was lifted to a decimal is no larger than decimals are. -/
theorem Decimal.tokens_le_of_raw {a : Decimal} {amount precision : ℤ} (hsign : 0 ≤ amount)
    (hraw : (a.raw : ℤ) = amount * tokenUnit precision) : amount ≤ maxRaw := by
  have hunit : (1 : ℤ) ≤ tokenUnit precision := by exact_mod_cast tokenUnit_pos precision
  calc amount ≤ amount * tokenUnit precision := le_mul_of_one_le_right hsign hunit
    _ = a.raw := hraw.symm
    _ ≤ maxRaw := by exact_mod_cast a.raw_le

namespace Pool

variable {p : Pool}

/-- Amounts that can be lifted are no larger than decimals are. -/
theorem exists_le_of_lift {amounts : List ℤ} {decimals : Pair Decimal}
    (h : p.lift amounts = .ok decimals) :
    ∃ pair : Pair ℤ, amounts = pair.toList ∧
      ∀ side, 0 ≤ pair.get side ∧ pair.get side ≤ Decimal.maxRaw := by
  obtain ⟨pair, hpair, hraw⟩ := exists_of_lift h
  exact ⟨pair, hpair, fun side ↦
    ⟨(hraw side).1, Decimal.tokens_le_of_raw (hraw side).1 (hraw side).2⟩⟩

/-- Amounts that were lowered are no larger than decimals are. -/
theorem lower_le_maxRaw {decimals : Pair Decimal} {amounts : Pair ℕ}
    (h : p.lower decimals = .ok amounts) (side : Side) : amounts.get side ≤ Decimal.maxRaw := by
  simp only [lower, bind_eq_ok, pure_eq_ok] at h
  obtain ⟨_, hbase, _, hquote, rfl⟩ := h
  cases side
  · exact Decimal.toTokens_le hbase
  · exact Decimal.toTokens_le hquote

/-- The fees in a quote are no larger than decimals are. -/
theorem lowerQuote_le_maxRaw {ask : Side} {q : SwapQuote} {t : TradeQuote}
    (h : p.lowerQuote ask q = .ok t) :
    t.commission ≤ Decimal.maxRaw ∧ t.makerFee ≤ Decimal.maxRaw := by
  simp only [lowerQuote, bind_eq_ok, pure_eq_ok] at h
  obtain ⟨_, -, _, -, _, hfee, _, hmaker, rfl⟩ := h
  exact ⟨Decimal.toTokens_le hfee, Decimal.toTokens_le hmaker⟩

end Pool

/-- A member of a pair is what it holds for a side. -/
theorem Pair.forall_mem_toList {α : Type} {pair : Pair α} {P : α → Prop} :
    (∀ a ∈ pair.toList, P a) ↔ ∀ side, P (pair.get side) := by
  constructor
  · intro h side
    cases side
    · exact h _ List.mem_cons_self
    · exact h _ (List.mem_cons_of_mem _ List.mem_cons_self)
  · intro h a ha
    simp only [toList, List.mem_cons, List.not_mem_nil, or_false] at ha
    rcases ha with rfl | rfl
    · exact h .base
    · exact h .quote

namespace Simulation

variable {s next : Simulation} {setup : Setup} {trade : Option TradeReceipt}
variable {strategy : Strategy} {price : Float} {fees : ℕ}

/-! ### What is in the records -/

/-- A balance is not negative, and no larger than two decimals: one that was there and one that
came in. -/
def SizedBalance (balance : ℤ) : Prop := 0 ≤ balance ∧ balance ≤ 2 * Decimal.maxRaw

/-- The fee of a trade is no larger than decimals are. -/
def SizedFee (trade : Option TradeReceipt) : Prop :=
  ∀ t ∈ trade, t.quote.commission ≤ Decimal.maxRaw

/-- The amounts in the records of a simulation have bounds; `fees` trades have paid to the maker at
the most. -/
structure Sized (s : Simulation) (fees : ℕ) : Prop where
  deposit : ∀ side, 0 ≤ s.initialDeposit.get side ∧ s.initialDeposit.get side ≤ Decimal.maxRaw
  makerFees : ∀ side, s.makerFees.get side ≤ fees * Decimal.maxRaw
  balances : ∀ b ∈ s.ledger.balances, SizedBalance b
  snapshots : ∀ x ∈ s.snapshots, (∀ b ∈ x.balances, SizedBalance b) ∧ SizedFee x.trade

/-- Nothing is in the records of a new simulation. -/
theorem sized_of_create {source : NormalSource} (h : create setup source = .ok s) : s.Sized 0 := by
  simp only [create, bind_eq_ok, pure_eq_ok] at h
  obtain ⟨_, -, _, -, _, -, _, -, _, -, rfl⟩ := h
  refine ⟨fun side ↦ ?_, fun side ↦ ?_, fun b hb ↦ ?_, fun x hx ↦ absurd hx List.not_mem_nil⟩
  · cases side <;> exact ⟨Int.le_refl 0, Int.natCast_nonneg _⟩
  · cases side <;> exact Nat.zero_le _
  · have hzero : b = 0 := by simpa [Ledger.ofPool] using hb
    rw [hzero]
    exact ⟨Int.le_refl 0, by decide⟩

/-- The bounds do not depend on the time. -/
theorem Sized.at_time (hs : s.Sized fees) (now : ℤ) : { s with now }.Sized fees :=
  ⟨hs.deposit, hs.makerFees, hs.balances, hs.snapshots⟩

/-- Nor do they depend on the path. -/
theorem Sized.along (hs : s.Sized fees) (path : List Float) : { s with path }.Sized fees :=
  ⟨hs.deposit, hs.makerFees, hs.balances, hs.snapshots⟩

/-- Bounds for more fees are weaker. -/
theorem Sized.mono (hs : s.Sized fees) {more : ℕ} (h : fees ≤ more) : s.Sized more :=
  ⟨hs.deposit, fun side ↦ (hs.makerFees side).trans (Nat.mul_le_mul_right _ h), hs.balances,
    hs.snapshots⟩

/-- Where there are shares, nothing is deposited at the start of a run. -/
theorem seedLiquidity_of_supply (h : s.ledger.supply ≠ 0) : s.seedLiquidity = .ok s := by
  unfold seedLiquidity
  rw [if_pos h]
  rfl

/-- The balances after a deposit were lifted in two parts. -/
theorem sized_seed (hs : s.Sized fees) (h : s.seedLiquidity = .ok next) : next.Sized fees := by
  by_cases hsupply : s.ledger.supply = 0
  · obtain ⟨deposit, receipt, ledger, hdeposit, rfl⟩ := exists_of_seedLiquidity hsupply h
    obtain ⟨pool, trace, -, rfl⟩ := Ledger.exists_of_deposit hdeposit
    obtain ⟨found, hfound, hthere⟩ := Pool.exists_le_of_lift trace.hpools
    obtain ⟨added, hpair, hadded⟩ := Pool.exists_le_of_lift trace.hdeposits
    obtain rfl : deposit = added := Pair.toList_inj.mp hpair
    have hsum : s.ledger.balances.zipWith (· + ·) deposit.toList =
        Pair.toList ⟨found.base + deposit.base, found.quote + deposit.quote⟩ := by
      rw [hfound]
      rfl
    refine ⟨hadded, hs.makerFees, ?_, hs.snapshots⟩
    show ∀ b ∈ s.ledger.balances.zipWith (· + ·) deposit.toList, SizedBalance b
    rw [hsum, Pair.forall_mem_toList]
    intro side
    have hget : Pair.get ⟨found.base + deposit.base, found.quote + deposit.quote⟩ side =
        found.get side + deposit.get side := by
      cases side <;> rfl
    have hfirst := hthere side
    have hsecond := hadded side
    rw [SizedBalance, hget]
    omega
  · rw [seedLiquidity_of_supply hsupply, Except.ok.injEq] at h
    rwa [← h]

/-- A swap finds balances and takes an offer that can be lifted, and leaves balances of the size of
both together. -/
theorem sizedBalance_afterSwap {pool next : Pool} {pair : Pair ℤ} {offer : Offer}
    {amount supply now : ℤ} {terms : SwapTerms} {receipt : TradeReceipt}
    (trace : pool.SwapTrace pair.toList offer amount supply now terms receipt next) (side : Side) :
    SizedBalance ((Ledger.afterSwap pair receipt).get side) := by
  obtain ⟨found, hfound, hpos, hamount, hraw⟩ := Pool.exists_of_liftOffer trace.hlift
  obtain rfl : pair = found := Pair.toList_inj.mp hfound
  have hoffer : amount ≤ Decimal.maxRaw := Decimal.tokens_le_of_raw hpos.le hamount
  have hsize (side : Side) : pair.get side ≤ Decimal.maxRaw :=
    Decimal.tokens_le_of_raw (hraw side).1.le (hraw side).2
  have hpaid := trace.payout_lt rfl
  have hthere := hsize side
  have hsign := (hraw side).1
  unfold SizedBalance
  rw [Ledger.get_afterSwap, trace.hamount]
  rcases Side.eq_or_eq_other side receipt.side with hside | hside
  · -- The offer comes in on this side, and nothing goes out.
    have hother : receipt.side ≠ side.other := by
      rw [hside]
      cases side <;> decide
    rw [if_pos hside, if_neg hother]
    omega
  · have hself : receipt.side ≠ side := by
      rw [hside]
      cases side <;> decide
    rw [hside, Side.other_other] at hpaid
    rw [if_neg hself, if_pos hside]
    omega

/-- A trade adds one fee at the most. -/
theorem sized_trade (hs : s.Sized fees) (h : TradeEnds s trade next) :
    next.Sized (fees + 1) ∧ SizedFee trade := by
  cases h with
  | kept failedTrades =>
    have hmore := hs.mono (Nat.le_succ fees)
    exact ⟨⟨hmore.deposit, hmore.makerFees, hmore.balances, hmore.snapshots⟩,
      fun t ht ↦ absurd ht (Option.not_mem_none t)⟩
  | @traded trade receipt ledger hswap =>
    obtain ⟨pool, pair, ⟨trace⟩, hpair, -, -, rfl⟩ := Ledger.exists_of_swap hswap
    obtain ⟨hcommission, hmaker⟩ := Pool.lowerQuote_le_maxRaw trace.hlower
    refine ⟨⟨hs.deposit, fun side ↦ ?_, ?_, hs.snapshots⟩, fun t ht ↦ ?_⟩
    · have hbooked := get_makerFees_book s trade receipt
        ⟨pool, (Ledger.afterSwap pair receipt).toList, s.ledger.supply⟩ side
      have hbefore := hs.makerFees side
      rw [Nat.succ_mul]
      split_ifs at hbooked <;> omega
    · rw [hpair] at trace
      exact Pair.forall_mem_toList.mpr (sizedBalance_afterSwap trace)
    · obtain rfl := Option.mem_some.mp ht
      exact hcommission

/-- A snapshot repeats the balances. -/
theorem sized_record {step : ℕ} (hs : s.Sized fees) (htrade : SizedFee trade)
    (h : s.record step price trade = .ok next) : next.Sized fees := by
  obtain ⟨_, -, rfl⟩ := record_eq_ok.mp h
  refine ⟨hs.deposit, hs.makerFees, hs.balances, fun x hx ↦ ?_⟩
  rcases List.mem_append.mp hx with hold | hnew
  · exact hs.snapshots x hold
  · rw [List.mem_singleton.mp hnew]
    exact ⟨hs.balances, htrade⟩

/-- A step adds one fee at the most. -/
theorem sized_advance {step : ℕ} (hs : s.Sized fees) (h : advance strategy s step = .ok next) :
    next.Sized (fees + 1) := by
  obtain ⟨price, trade, middle, -, htrade, hrecord⟩ := advance_eq_ok.mp h
  obtain ⟨hmiddle, hfee⟩ := sized_trade (hs.at_time _) (tradeEnds_of_trade htrade)
  exact sized_record hmiddle hfee hrecord

/-- The first steps of a run add as many fees at the most. -/
theorem sized_after {k : ℕ} (hs : s.Sized fees) (h : s.after strategy k = .ok next) :
    next.Sized (fees + k) := by
  induction k generalizing next with
  | zero =>
    obtain ⟨seeded, price, hseeded, -, hrecord⟩ := after_zero_eq_ok.mp h
    exact sized_record (sized_seed hs hseeded) (fun t ht ↦ absurd ht (Option.not_mem_none t))
      hrecord
  | succ k ih =>
    obtain ⟨middle, hmiddle, hadvance⟩ := after_succ_eq_ok.mp h
    exact sized_advance (ih hmiddle) hadvance

/-! ### What can be computed from them -/

/-- Amounts of both assets that are not too large have their values in whole tokens. -/
theorem exists_inWholeTokens (s : Simulation) {amounts : Pair ℤ}
    (h : ∀ side, (amounts.get side).natAbs ≤ Market.maxAmount) :
    ∃ tokens, s.inWholeTokens amounts = .ok tokens := by
  obtain ⟨base, hbase⟩ := Market.exists_wholeTokens (s.ledger.pool.precision .base) (h .base)
  obtain ⟨quote, hquote⟩ := Market.exists_wholeTokens (s.ledger.pool.precision .quote) (h .quote)
  refine ⟨⟨base, quote⟩, ?_⟩
  simp only [inWholeTokens, bind_eq_ok, pure_eq_ok]
  exact ⟨base, hbase, quote, hquote, rfl⟩

/-- They are worth something at any price. -/
theorem exists_valueOf (s : Simulation) (price : Float) {amounts : Pair ℤ}
    (h : ∀ side, (amounts.get side).natAbs ≤ Market.maxAmount) :
    ∃ value, s.valueOf amounts price = .ok value := by
  obtain ⟨tokens, htokens⟩ := s.exists_inWholeTokens h
  refine ⟨tokens.base + tokens.quote * price, ?_⟩
  simp only [valueOf, bind_eq_ok, pure_eq_ok]
  exact ⟨tokens, htokens, rfl⟩

/-- What the provider's shares would pay out, and the pool that this would leave. -/
def payout (s : Simulation) : Except Fault (Pair ℕ × Pool) :=
  s.ledger.pool.withdraw s.ledger.balances s.providerShare s.ledger.supply s.now []

/-- What the shares pay out and the deposit are both valued at a price. -/
structure ValuedAt (s : Simulation) (o : Outcome) (price : Float) : Prop where
  price_eq : o.price = price
  refunds : ∃ pool, s.payout = .ok (o.refunds, pool)
  withdrawValue : s.valueOf (o.refunds.map Int.ofNat) price = .ok o.withdrawValue
  holdValue : s.valueOf s.initialDeposit price = .ok o.holdValue

/-- Where the shares can be paid out there is an outcome, if only there is a price to value them
at. -/
theorem exists_outcome (hs : s.Sized fees) (hfees : fees ≤ 2 ^ 64) {result : Pair ℕ × Pool}
    (hpayout : s.payout = .ok result) (hprice : s.path[s.snapshots.length - 1]? = some price) :
    ∃ o, s.outcome = .ok o ∧ s.ValuedAt o price := by
  obtain ⟨refunds, pool⟩ := result
  obtain ⟨trace⟩ := Pool.nonempty_withdrawalTrace hpayout
  obtain ⟨hshareSign, hshareRaw⟩ := Pool.liftShares_eq_ok trace.hamount
  have hmax : Decimal.maxRaw ≤ Market.maxAmount := by decide
  have hshare : (s.providerShare : ℤ).natAbs ≤ Market.maxAmount := by
    have hle := Decimal.tokens_le_of_raw hshareSign hshareRaw
    omega
  have hrefunds (side : Side) :
      ((refunds.map Int.ofNat).get side).natAbs ≤ Market.maxAmount := by
    have hle := Pool.lower_le_maxRaw trace.hlower side
    cases side <;> exact hle.trans hmax
  have hdeposit (side : Side) : (s.initialDeposit.get side).natAbs ≤ Market.maxAmount := by
    have hle := hs.deposit side
    omega
  have hfee (side : Side) :
      ((s.makerFees.map Int.ofNat).get side).natAbs ≤ Market.maxAmount := by
    have hle : s.makerFees.get side ≤ Market.maxAmount :=
      (hs.makerFees side).trans (Nat.mul_le_mul_right _ hfees)
    cases side <;> exact hle
  obtain ⟨withdrawValue, hwithdraw⟩ := s.exists_valueOf price hrefunds
  obtain ⟨holdValue, hhold⟩ := s.exists_valueOf price hdeposit
  obtain ⟨share, hshareValue⟩ := Market.exists_wholeTokens Limits.sharePrecision hshare
  obtain ⟨makerFees, hmakerFees⟩ := s.exists_inWholeTokens hfee
  rw [← priceAt_eq_ok] at hprice
  refine ⟨⟨price, refunds, withdrawValue, holdValue, share, makerFees,
    s.ledger.pool.summary s.now⟩, ?_, ⟨rfl, ⟨pool, hpayout⟩, hwithdraw, hhold⟩⟩
  unfold payout at hpayout
  simp only [outcome, hprice, hpayout, hwithdraw, hhold, hshareValue, hmakerFees, ok_bind]
  rfl

/-- A function that succeeds on each member of a list succeeds on the list. -/
theorem exists_mapM {ε α β : Type} {f : α → Except ε β} {xs : List α}
    (h : ∀ x ∈ xs, ∃ y, f x = .ok y) : ∃ ys, xs.mapM f = .ok ys := by
  induction xs with
  | nil => exact ⟨[], rfl⟩
  | cons x xs ih =>
    obtain ⟨y, hy⟩ := h x List.mem_cons_self
    obtain ⟨ys, hys⟩ := ih fun z hz ↦ h z (List.mem_cons_of_mem x hz)
    refine ⟨y :: ys, ?_⟩
    simp only [List.mapM_cons, bind_eq_ok, pure_eq_ok]
    exact ⟨y, hy, ys, hys, rfl⟩

/-- A snapshot has a row. -/
theorem exists_row (s : Simulation) {x : Snapshot} (hbalances : ∀ b ∈ x.balances, SizedBalance b)
    (hfee : SizedFee x.trade) : ∃ row, s.row x = .ok row := by
  have hmax : 2 * Decimal.maxRaw ≤ Market.maxAmount := by decide
  obtain ⟨balances, hrow⟩ : ∃ balances,
      (x.balances.zip (s.ledger.pool.assets.toList.map Asset.precision)).mapM
        (fun b ↦ Market.wholeTokens b.1 b.2) = .ok balances := by
    refine exists_mapM fun b hb ↦ Market.exists_wholeTokens b.2 ?_
    obtain ⟨hsign, hle⟩ := hbalances b.1 (List.of_mem_zip hb).1
    omega
  obtain ⟨fee, hpaid⟩ : ∃ fee, s.feePaid x.trade = .ok fee := by
    unfold feePaid
    cases htrade : x.trade with
    | none => exact ⟨0.0, rfl⟩
    | some t =>
      have hle := hfee t htrade
      exact Market.exists_wholeTokens _ (by omega)
  simp only [row, hrow, hpaid, ok_bind]
  exact ⟨_, rfl⟩

/-- Every snapshot has its row. -/
theorem exists_rows (hs : s.Sized fees) : ∃ rows, s.rows = .ok rows :=
  exists_mapM fun x hx ↦ s.exists_row (hs.snapshots x hx).1 (hs.snapshots x hx).2

end Simulation

end ConcentratedPool
