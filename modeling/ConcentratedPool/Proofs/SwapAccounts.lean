import ConcentratedPool.Proofs.FeeRates
import ConcentratedPool.Proofs.QuoteAgreement
import ConcentratedPool.Proofs.SwapValue

/-!
# Every unit of a swap is accounted for

The output of a priced swap and its fee add up to what the curve gives out before the fee
(`grossOutput`). The spread is what that lacks of the ideal output at the price scale, and nothing
where the scale lags behind the market and the curve gives more; so with the spread they add up to
the larger of the two (`fullOutput`).

In token units each of the three is rounded down by itself, and together they lack at most two units
of the full output, rounded down (`parts_of_div`). Pools price a swap and carry it out by the same
amounts, so both account for it (`Pool.Accounts`), and a swap that is carried out leaves something
of the asked asset (`Pool.accounts_of_swap`).
-/

set_option autoImplicit false
set_option relaxedAutoImplicit false

namespace ConcentratedPool

/-! ### In decimals -/

/-- What the curve gives out for an offer before the fee, in the asked asset. -/
def grossOutput (state : PoolState) (pools : Pair Decimal) (offer : Decimal) (ask : Side)
    (now : ℤ) : Except Fault Decimal := do
  let (value, _) ← curveOutput (state.promotion.effective now) state.price.scale pools offer ask
  ofValue state.price.scale ask value

/-- The larger of what the curve gives out before the fee and what the offer is worth at the price
scale. -/
def fullOutput (state : PoolState) (pools : Pair Decimal) (offer : Decimal) (ask : Side)
    (now : ℤ) : Except Fault Decimal := do
  let gross ← grossOutput state pools offer ask now
  return gross.max (← idealOutput state.price.scale ask offer)

theorem Decimal.raw_max (a b : Decimal) : (a.max b).raw = Max.max a.raw b.raw := by
  unfold max
  split_ifs with hlt
  · exact (max_eq_right (Nat.le_of_lt hlt)).symm
  · exact (max_eq_left (not_lt.mp hlt)).symm

section Quote

variable {state : PoolState} {params : PoolParams} {pools : Pair Decimal}
variable {offer makerShare : Decimal} {ask : Side} {now : ℤ} {q : SwapQuote}

theorem QuoteTrace.grossOutput_eq
    (trace : QuoteTrace state params pools offer ask now makerShare q) :
    grossOutput state pools offer ask now = .ok trace.gross := by
  rw [grossOutput, trace.hcurve, ok_bind]
  exact trace.hgross

theorem QuoteTrace.fullOutput_eq
    (trace : QuoteTrace state params pools offer ask now makerShare q) :
    fullOutput state pools offer ask now = .ok (trace.gross.max trace.ideal) := by
  rw [fullOutput, trace.grossOutput_eq, ok_bind, trace.hideal]
  rfl

/-- The spread is what is lacking of the full output. -/
theorem QuoteTrace.gross_add_spread
    (trace : QuoteTrace state params pools offer ask now makerShare q) :
    trace.gross.raw + q.spread.raw = (trace.gross.max trace.ideal).raw := by
  rw [trace.hspread, Decimal.raw_max]
  change trace.gross.raw + (trace.ideal.raw - trace.gross.raw) = _
  omega

end Quote

/-! ### In token units -/

/-- Three amounts that are rounded down to units by themselves lack at most two units of their sum
rounded down. -/
theorem parts_of_div (a b c : ℕ) {unit : ℕ} (hunit : 0 < unit) :
    a / unit + b / unit + c / unit ≤ (a + b + c) / unit ∧
      (a + b + c) / unit ≤ a / unit + b / unit + c / unit + 2 := by
  have hsum : a + b + c =
      (a % unit + b % unit + c % unit) + unit * (a / unit + b / unit + c / unit) := by
    have ha := Nat.mod_add_div a unit
    have hb := Nat.mod_add_div b unit
    have hc := Nat.mod_add_div c unit
    rw [Nat.mul_add, Nat.mul_add]
    omega
  have hrest : (a % unit + b % unit + c % unit) / unit < 3 := by
    rw [Nat.div_lt_iff_lt_mul hunit]
    have ha := Nat.mod_lt a hunit
    have hb := Nat.mod_lt b hunit
    have hc := Nat.mod_lt c hunit
    omega
  rw [hsum, Nat.add_mul_div_left _ _ hunit]
  constructor
  · exact Nat.le_add_left _ _
  · omega

namespace Pool

variable {p next : Pool} {balances : List ℤ} {offer : Offer} {amount supply now : ℤ}

/-- Whether the output, the commission and the spread of a swap of `amount` tokens, in token units,
are together the full output rounded down to units, but for two units at most. -/
def Accounts (p : Pool) (balances : List ℤ) (side : Side) (amount now : ℤ) (t : TradeQuote) :
    Prop :=
  ∃ pools dec full units, p.liftOffer balances side amount = .ok (pools, dec) ∧
    fullOutput p.state pools dec side.other now = .ok full ∧
    full.toTokens (p.precision side.other) = .ok units ∧
    units ≤ t.output + t.commission + t.spread + 2 ∧ t.output + t.commission + t.spread ≤ units

/-- Rounding down a priced swap keeps its account. -/
theorem accounts_of_lowerQuote {side : Side} {pools : Pair Decimal} {dec makerShare : Decimal}
    {q : SwapQuote} {t : TradeQuote}
    (hlift : p.liftOffer balances side amount = .ok (pools, dec))
    (hquote : quoteSwap p.state p.params pools dec side.other now makerShare = .ok q)
    (hlower : p.lowerQuote side.other q = .ok t) : p.Accounts balances side amount now t := by
  obtain ⟨trace⟩ := nonempty_quoteTrace hquote
  have hprecision : p.precision side.other ≤ Decimal.places :=
    precision_le_of_lift (lift_of_liftOffer hlift) _
  rw [lowerQuote_eq_ok hprecision, Except.ok.injEq] at hlower
  have hparts := parts_of_div q.output.raw q.fee.raw q.spread.raw
    (Decimal.tokenUnit_pos (p.precision side.other))
  rw [trace.output_add_fee, trace.gross_add_spread] at hparts
  refine ⟨pools, dec, _, _, hlift, trace.fullOutput_eq,
    Decimal.toTokens_eq_ok.mpr ⟨hprecision, rfl⟩, ?_⟩
  rw [← hlower]
  exact hparts.symm

/-- A quote accounts for the swap. -/
theorem accounts_of_quote {makerShare : Option Decimal} {t : TradeQuote}
    (h : p.quote balances offer amount now makerShare = .ok t) :
    ∃ side, p.side offer = .ok side ∧ p.Accounts balances side amount now t := by
  simp only [quote, bind_eq_ok, Prod.exists] at h
  obtain ⟨side, hside, pools, dec, hlift, q, hquote, hlower⟩ := h
  exact ⟨side, hside, accounts_of_lowerQuote hlift hquote hlower⟩

/-- Every unit of a swap is accounted for. In decimals, the output and the fee of a priced swap are
what the curve gives out, and the spread is what that lacks of the full output; the fee rate is
between the middle and the outer fee, the maker gets no more than the fee, and the trader gets
something. In token units, a quote and a swap that is carried out account for it but for two units,
and the swap leaves something of the asked asset. -/
theorem accounts_of_swap :
    (∀ (state : PoolState) (params : PoolParams) (pools : Pair Decimal) (offer : Decimal)
        (ask : Side) (now : ℤ) (makerShare : Decimal) (q : SwapQuote),
      quoteSwap state params pools offer ask now makerShare = .ok q →
      ∃ gross full, grossOutput state pools offer ask now = .ok gross ∧
        fullOutput state pools offer ask now = .ok full ∧
        q.output.raw + q.fee.raw = gross.raw ∧
        q.output.raw + q.fee.raw + q.spread.raw = full.raw ∧
        params.fees.mid ≤ q.rate ∧ q.rate ≤ params.fees.out ∧
        q.makerFee ≤ q.fee ∧ 0 < q.output.raw) ∧
    (∀ (p : Pool) (balances : List ℤ) (offer : Offer) (amount now : ℤ)
        (makerShare : Option Decimal) (t : TradeQuote),
      p.quote balances offer amount now makerShare = .ok t →
      ∃ side, p.side offer = .ok side ∧ p.Accounts balances side amount now t) ∧
    ∀ (p next : Pool) (balances : List ℤ) (offer : Offer) (amount supply now : ℤ)
        (terms : SwapTerms) (receipt : TradeReceipt),
      p.swap balances offer amount supply now terms = .ok (receipt, next) →
      p.side offer = .ok receipt.side ∧
      p.Accounts balances receipt.side amount now receipt.quote ∧
      ∃ pair : Pair ℤ, balances = pair.toList ∧
        (receipt.quote.output + receipt.quote.makerFee : ℤ) < pair.get receipt.side.other := by
  refine ⟨?_, fun p balances offer amount now makerShare t h ↦ accounts_of_quote h, ?_⟩
  · intro state params pools offer ask now makerShare q h
    obtain ⟨trace⟩ := nonempty_quoteTrace h
    obtain ⟨hmid, hout⟩ := Fee.rate_mem trace.hrate
    have hsplit := Fee.add_eq_of_split trace.hsplit
    refine ⟨trace.gross, _, trace.grossOutput_eq, trace.fullOutput_eq, trace.output_add_fee, ?_,
      hmid, hout, Decimal.le_def.mpr (by omega), trace.hpos⟩
    rw [trace.output_add_fee]
    exact trace.gross_add_spread
  · intro p next balances offer amount supply now terms receipt h
    obtain ⟨trace⟩ := nonempty_swapTrace h
    obtain ⟨pair, hpair, -⟩ := exists_of_liftOffer trace.hlift
    exact ⟨trace.hside, accounts_of_lowerQuote trace.hlift trace.hquote trace.hlower, pair, hpair,
      trace.payout_lt hpair⟩

/-- A unit for lopsided balances is priced, and its output, fee and spread are the full output. A
swap in an even pool is quoted and carried out, and both account for it. -/
theorem accounts_of_swap_even :
    (∃ q full, quoteSwap Pool.usual.state Pool.usual.params lopsided .one .quote 0 .zero = .ok q ∧
      fullOutput Pool.usual.state lopsided .one .quote 0 = .ok full ∧
      q.output.raw + q.fee.raw + q.spread.raw = full.raw) ∧
    ∃ t receipt next,
      Ledger.even.pool.quote Ledger.even.balances (.index 0) 1_000_000 600 none = .ok t ∧
      Ledger.even.pool.swap Ledger.even.balances (.index 0) 1_000_000 Ledger.even.supply 600
        ⟨none, none, none⟩ = .ok (receipt, next) ∧
      Ledger.even.pool.Accounts Ledger.even.balances .base 1_000_000 600 t ∧
      Ledger.even.pool.Accounts Ledger.even.balances receipt.side 1_000_000 600
        receipt.quote := by
  obtain ⟨hpriced, hquoted, hswapped⟩ := accounts_of_swap
  constructor
  · obtain ⟨q, hq, -⟩ := exists_of_any
      (quoteSwap Pool.usual.state Pool.usual.params lopsided .one .quote 0 .zero) (fun _ ↦ true)
      (by decide +kernel)
    obtain ⟨_, full, -, hfull, -, hsum, -⟩ := hpriced _ _ _ _ _ _ _ _ hq
    exact ⟨q, full, hq, hfull, hsum⟩
  · obtain ⟨t, ht, -⟩ := exists_of_any
      (Ledger.even.pool.quote Ledger.even.balances (.index 0) 1_000_000 600 none) (fun _ ↦ true)
      (by decide +kernel)
    obtain ⟨⟨receipt, next⟩, hswap, -⟩ := exists_of_any
      (Ledger.even.pool.swap Ledger.even.balances (.index 0) 1_000_000 Ledger.even.supply 600
        ⟨none, none, none⟩) (fun _ ↦ true) (by decide +kernel)
    obtain ⟨side, hside, haccounts⟩ := hquoted _ _ _ _ _ _ _ ht
    obtain rfl : side = .base := (Except.ok.inj hside).symm
    obtain ⟨-, hreceipt, -⟩ := hswapped _ _ _ _ _ _ _ _ _ hswap
    exact ⟨t, receipt, next, ht, hswap, haccounts, hreceipt⟩

end Pool

end ConcentratedPool
