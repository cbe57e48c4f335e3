import ConcentratedPool.Market.Arbitrage
import ConcentratedPool.Proofs.SwapValue
import ConcentratedPool.Quote.Dispatch

/-!
# Quotes agree with swaps

A pool prices a swap in three places: a swap that is carried out, a quote that leaves the pool
alone, and a quote by the kind of the pool. They agree because the maker's share enters a priced
swap in one place only, the very last: `quoteSwap_eq_withMaker` takes every price from the price
without a share by setting the maker's part of the fee. What can be refused is therefore refused by
the quote without a share already (`Pool.swap_eq_error_of_quote`), and what a swap pays is what was
quoted (`Pool.quote_eq_of_swap`, `Pool.exists_quote_of_swap`).

A trader who looks for the best trade reads its output off a quote of that very trade, whichever way
the search went there (`Arbitrageur.quote_of_findTrade`). `Pool.quote_agrees` puts the four
together.
-/

set_option autoImplicit false
set_option relaxedAutoImplicit false

namespace ConcentratedPool

/-! ### The maker's share -/

/-- Without a share the maker has no part of a fee. -/
theorem Fee.split_zero (fee : Decimal) : Fee.split fee .zero = .ok (.zero, fee) := by
  simp only [Fee.split, bind_eq_ok, pure_eq_ok]
  refine ⟨.zero, ?_, fee, ?_, rfl⟩
  · rw [Decimal.mul_eq_ok]
    show 0 = fee.raw * 0 / Decimal.scale
    rw [Nat.mul_zero, Nat.zero_div]
  · rw [Decimal.sub_eq_ok]
    rfl

/-- A priced swap with the maker's part of its fee. -/
def SwapQuote.withMaker (q : SwapQuote) (makerShare : Decimal) : Except Fault SwapQuote := do
  let (makerFee, _) ← Fee.split q.fee makerShare
  return { q with makerFee }

/-- A share of the maker changes nothing of a priced swap but the maker's part of the fee. -/
theorem quoteSwap_eq_withMaker (state : PoolState) (params : PoolParams) (pools : Pair Decimal)
    (offer : Decimal) (ask : Side) (now : ℤ) (makerShare : Decimal) :
    quoteSwap state params pools offer ask now makerShare =
      (quoteSwap state params pools offer ask now .zero >>= fun q ↦ q.withMaker makerShare) := by
  simp only [quoteSwap, bind_assoc]
  -- Both sides run through the same checked steps; only the split of the fee at the end differs.
  refine bind_congr fun curve ↦ bind_congr fun gross ↦ bind_congr fun ideal ↦
    bind_congr fun rate ↦ bind_congr fun fee ↦ bind_congr fun output ↦ ?_
  split_ifs with hzero
  · rfl
  · rw [Fee.split_zero]
    rfl

/-- The maker's part of a fee is all that a share of the maker changes. -/
theorem SwapQuote.eq_of_withMaker {q shared : SwapQuote} {makerShare : Decimal}
    (h : q.withMaker makerShare = .ok shared) :
    q.output = shared.output ∧ q.spread = shared.spread ∧ q.fee = shared.fee := by
  simp only [withMaker, bind_eq_ok, pure_eq_ok, Prod.exists] at h
  obtain ⟨_, _, -, rfl⟩ := h
  exact ⟨rfl, rfl, rfl⟩

namespace Pool

variable {p next : Pool} {balances : List ℤ} {offer : Offer} {amount supply now : ℤ}

/-! ### Amounts that can be lifted can be lowered -/

/-- A quote in token units, each amount rounded down. -/
theorem lowerQuote_eq_ok {ask : Side} (h : p.precision ask ≤ Decimal.places) (q : SwapQuote) :
    p.lowerQuote ask q = .ok ⟨q.output.raw / p.unit ask, q.spread.raw / p.unit ask,
      q.fee.raw / p.unit ask, q.makerFee.raw / p.unit ask⟩ := by
  simp only [lowerQuote, bind_eq_ok, pure_eq_ok, Decimal.toTokens_eq_ok]
  exact ⟨_, ⟨h, rfl⟩, _, ⟨h, rfl⟩, _, ⟨h, rfl⟩, _, ⟨h, rfl⟩, rfl⟩

/-- A pool that prices an offer lifted the balances. -/
theorem lift_of_liftOffer {side : Side} {pools : Pair Decimal} {dec : Decimal}
    (h : p.liftOffer balances side amount = .ok (pools, dec)) : p.lift balances = .ok pools := by
  simp only [liftOffer, bind_eq_ok, pure_eq_ok, Prod.mk.injEq] at h
  obtain ⟨_, hlift, _, -, _, -, rfl, -⟩ := h
  exact hlift

/-! ### Quotes and swaps -/

section Swap

variable {terms : SwapTerms} {receipt : TradeReceipt}

/-- A swap that is carried out comes to what is quoted with the same share of the maker. -/
theorem quote_eq_of_swap
    (h : p.swap balances offer amount supply now terms = .ok (receipt, next)) :
    p.quote balances offer amount now terms.makerShare = .ok receipt.quote := by
  obtain ⟨trace⟩ := nonempty_swapTrace h
  simp only [quote, bind_eq_ok, Prod.exists]
  exact ⟨_, trace.hside, _, _, trace.hlift, _, trace.hquote, trace.hlower⟩

/-- A swap that is carried out comes, but for the maker's part of the fee, to what is quoted without
a share of the maker. -/
theorem exists_quote_of_swap
    (h : p.swap balances offer amount supply now terms = .ok (receipt, next)) :
    ∃ quoted, p.quote balances offer amount now none = .ok quoted ∧
      quoted.output = receipt.quote.output ∧ quoted.spread = receipt.quote.spread ∧
      quoted.commission = receipt.quote.commission := by
  obtain ⟨trace⟩ := nonempty_swapTrace h
  have hprecision : p.precision receipt.side.other ≤ Decimal.places :=
    precision_le_of_lift (lift_of_liftOffer trace.hlift) _
  have hquote := trace.hquote
  rw [quoteSwap_eq_withMaker, bind_eq_ok] at hquote
  obtain ⟨net, hnet, hmaker⟩ := hquote
  obtain ⟨houtput, hspread, hfee⟩ := SwapQuote.eq_of_withMaker hmaker
  have hlower := trace.hlower
  rw [lowerQuote_eq_ok hprecision, Except.ok.injEq] at hlower
  refine ⟨⟨net.output.raw / p.unit receipt.side.other, net.spread.raw / p.unit receipt.side.other,
    net.fee.raw / p.unit receipt.side.other, net.makerFee.raw / p.unit receipt.side.other⟩, ?_, ?_⟩
  · simp only [quote, bind_eq_ok, Prod.exists]
    exact ⟨_, trace.hside, _, _, trace.hlift, net, hnet, lowerQuote_eq_ok hprecision net⟩
  · rw [← hlower, houtput, hspread, hfee]
    exact ⟨rfl, rfl, rfl⟩

/-- A refusal of the quote without a share of the maker is the refusal of the swap, on whatever
terms. -/
theorem swap_eq_error_of_quote {fault : Fault}
    (h : p.quote balances offer amount now none = .error fault) (supply : ℤ) (terms : SwapTerms) :
    p.swap balances offer amount supply now terms = .error fault := by
  unfold quote at h
  unfold swap
  rcases bind_eq_error.mp h with hside | ⟨side, hside, h⟩
  · exact bind_eq_error.mpr (.inl hside)
  refine bind_eq_error.mpr (.inr ⟨side, hside, ?_⟩)
  rcases bind_eq_error.mp h with hlift | ⟨lifted, hlift, h⟩
  · exact bind_eq_error.mpr (.inl hlift)
  refine bind_eq_error.mpr (.inr ⟨lifted, hlift, bind_eq_error.mpr (.inl ?_)⟩)
  rw [quoteSwap_eq_withMaker]
  rcases bind_eq_error.mp h with hquote | ⟨net, -, hlower⟩
  · exact bind_eq_error.mpr (.inl hquote)
  · -- The balances were lifted, so there is nothing to refuse when the quote is lowered.
    rw [lowerQuote_eq_ok (precision_le_of_lift (lift_of_liftOffer hlift) side.other)] at hlower
    cases hlower

end Swap

/-! ### Quotes by the kind of the pool -/

/-- A quote by kind of a concentrated pool is the priced swap, once the offer is checked. -/
theorem quoteByKind_concentrated (pools : Pair Decimal) (side : Side) (dec : Decimal)
    {terms : QuoteTerms} {state : PoolState} {params : PoolParams}
    (h : terms.pool = some (state, params)) :
    quoteByKind PoolKind.concentrated.name pools side dec terms =
      (checkOffer pools dec >>= fun _ ↦ quoteSwap state params pools dec side.other terms.now
        (terms.makerShare.getD .zero)) := by
  unfold quoteByKind
  rw [h]
  rfl

/-- A quote of token amounts is the quote by kind of the lifted amounts, rounded down. -/
theorem quote_eq_quoteByKind {side : Side} {pools : Pair Decimal} {dec : Decimal}
    {terms : QuoteTerms} (hside : p.side offer = .ok side) (hpools : p.lift balances = .ok pools)
    (hdec : Decimal.ofTokens amount (p.precision side) = .ok dec)
    (hpool : terms.pool = some (p.state, p.params)) (hnow : terms.now = now) :
    p.quote balances offer amount now terms.makerShare =
      (quoteByKind PoolKind.concentrated.name pools side dec terms >>= p.lowerQuote side.other) := by
  rw [quoteByKind_concentrated pools side dec hpool, hnow]
  simp only [quote, liftOffer, hside, hpools, hdec, ok_bind, pure_bind, bind_assoc]

end Pool

/-! ### The best trade -/

namespace Market

variable {p : Pool} {balances : List ℤ} {price : Float} {now : ℤ} {side : Side} {amount : ℤ}

/-- What a trade earns comes from a quote of it without a share of the maker. -/
theorem exists_quote_of_earnings {e : Earnings}
    (h : earnings p balances price now side amount = .ok (some e)) :
    ∃ quoted, p.quote balances (.index side.index) amount now none = .ok quoted ∧
      quoted.output = e.output := by
  unfold earnings at h
  split at h
  · cases h
  split at h
  · split at h
    · cases h
    · cases h
  next quoted hquoted =>
  simp only [bind_eq_ok, pure_eq_ok, Option.some.injEq] at h
  obtain ⟨_, -, _, -, rfl⟩ := h
  exact ⟨quoted, hquoted, rfl⟩

end Market

namespace Arbitrageur

variable {a : Arbitrageur} {p : Pool} {balances : List ℤ} {price : Float} {now : ℤ}
variable {trade : ArbitrageTrade}

/-- The best trade on a side is on that side, and what it earns is what its amount earns. The search
chose the amount; its output is not taken from the search. -/
theorem exists_earnings_of_bestOn {side : Side}
    (h : a.bestOn p balances price now side = .ok (some trade)) :
    trade.side = side ∧ ∃ e, Market.earnings p balances price now side trade.amount = .ok (some e) ∧
      e.output = trade.output := by
  unfold bestOn at h
  split at h
  · cases h
  simp only [bind_eq_ok] at h
  obtain ⟨best, -, h⟩ := h
  split at h
  · cases h
  simp only [bind_eq_ok] at h
  obtain ⟨earned, hearned, h⟩ := h
  split at h
  · cases h
  next amount _ e =>
  rcases branch_eq_ok.mp h with ⟨-, hnone⟩ | ⟨-, hsome⟩
  · cases hnone
  · cases hsome
    exact ⟨rfl, e, hearned, rfl⟩

/-- The better of two trades is one of them. -/
theorem better_eq_some {first second : Option ArbitrageTrade}
    (h : better first second = some trade) : first = some trade ∨ second = some trade := by
  unfold better at h
  split at h
  · exact .inr h
  · exact .inl h
  · split_ifs at h
    · exact .inr h
    · exact .inl h

/-- The trade that is found is quoted with the output that it expects, whichever way the search for
its amount went. -/
theorem quote_of_findTrade (h : a.findTrade p balances price now = .ok (some trade)) :
    ∃ quoted, p.quote balances (.index trade.side.index) trade.amount now none = .ok quoted ∧
      quoted.output = trade.output := by
  simp only [findTrade, bind_eq_ok, pure_eq_ok] at h
  obtain ⟨first, hfirst, second, hsecond, hbetter⟩ := h
  have hbest : ∃ side, a.bestOn p balances price now side = .ok (some trade) := by
    rcases better_eq_some hbetter with rfl | rfl
    · exact ⟨.base, hfirst⟩
    · exact ⟨.quote, hsecond⟩
  obtain ⟨side, hbest⟩ := hbest
  obtain ⟨rfl, e, he, houtput⟩ := exists_earnings_of_bestOn hbest
  obtain ⟨quoted, hquoted, hsame⟩ := Market.exists_quote_of_earnings he
  exact ⟨quoted, hquoted, hsame.trans houtput⟩

end Arbitrageur

/-! ### Agreement -/

namespace Pool

/-- Quotes and swaps of a pool agree. A swap that is carried out comes to what is quoted with its
share of the maker, and to what is quoted without one but for the maker's part of the fee. A refusal
of the quote without a share is the refusal of every such swap. A quote is the quote by kind of the
lifted amounts, rounded down. A trade that a trader finds is quoted with the output that it expects,
and pays it where it is carried out. -/
theorem quote_agrees (p : Pool) (balances : List ℤ) (now : ℤ) :
    (∀ offer amount supply terms receipt next,
      p.swap balances offer amount supply now terms = .ok (receipt, next) →
      p.quote balances offer amount now terms.makerShare = .ok receipt.quote ∧
        ∃ quoted, p.quote balances offer amount now none = .ok quoted ∧
          quoted.output = receipt.quote.output ∧ quoted.spread = receipt.quote.spread ∧
          quoted.commission = receipt.quote.commission) ∧
    (∀ offer amount fault, p.quote balances offer amount now none = .error fault →
      ∀ supply terms, p.swap balances offer amount supply now terms = .error fault) ∧
    (∀ offer amount side pools dec, p.side offer = .ok side → p.lift balances = .ok pools →
      Decimal.ofTokens amount (p.precision side) = .ok dec →
      ∀ terms : QuoteTerms, terms.pool = some (p.state, p.params) → terms.now = now →
      p.quote balances offer amount now terms.makerShare =
        (quoteByKind PoolKind.concentrated.name pools side dec terms >>=
          p.lowerQuote side.other)) ∧
    (∀ (a : Arbitrageur) price trade, a.findTrade p balances price now = .ok (some trade) →
      (∃ quoted, p.quote balances (.index trade.side.index) trade.amount now none = .ok quoted ∧
        quoted.output = trade.output) ∧
      ∀ supply terms receipt next,
        p.swap balances (.index trade.side.index) trade.amount supply now terms =
          .ok (receipt, next) → receipt.quote.output = trade.output) := by
  refine ⟨?_, ?_, ?_, ?_⟩
  · intro offer amount supply terms receipt next h
    exact ⟨quote_eq_of_swap h, exists_quote_of_swap h⟩
  · intro offer amount fault h supply terms
    exact swap_eq_error_of_quote h supply terms
  · intro offer amount side pools dec hside hpools hdec terms hpool hnow
    exact quote_eq_quoteByKind hside hpools hdec hpool hnow
  · intro a price trade h
    obtain ⟨quoted, hquoted, houtput⟩ := Arbitrageur.quote_of_findTrade h
    refine ⟨⟨quoted, hquoted, houtput⟩, fun supply terms receipt next hswap ↦ ?_⟩
    obtain ⟨quoted', hquoted', hsame, -, -⟩ := exists_quote_of_swap hswap
    obtain rfl : quoted = quoted' := Except.ok.inj (hquoted.symm.trans hquoted')
    exact hsame.symm.trans houtput

/-- On an even pool: a swap that leaves half of its fee to the maker, an offer of nothing, the quote
by kind of the same swap, and the trade that is found where the market pays a tenth more than the
pool. -/
theorem quote_agrees_even :
    (∃ receipt next, Ledger.even.pool.swap Ledger.even.balances (.index 0) 1_000_000
        Ledger.even.supply 600 ⟨none, none, some Limits.maxFee⟩ = .ok (receipt, next) ∧
      Ledger.even.pool.quote Ledger.even.balances (.index 0) 1_000_000 600 (some Limits.maxFee) =
        .ok receipt.quote ∧ 0 < receipt.quote.makerFee) ∧
    (Ledger.even.pool.quote Ledger.even.balances (.index 0) 0 600 none =
        .error (.zeroAmount .swap) ∧
      Ledger.even.pool.swap Ledger.even.balances (.index 0) 0 Ledger.even.supply 600
        ⟨none, none, none⟩ = .error (.zeroAmount .swap)) ∧
    (∃ pools dec, Ledger.even.pool.lift Ledger.even.balances = .ok pools ∧
      Ledger.even.pool.quote Ledger.even.balances (.index 0) 1_000_000 600 none =
        (quoteByKind PoolKind.concentrated.name pools .base dec ⟨none, none,
          some (Ledger.even.pool.state, Ledger.even.pool.params), 600, none⟩ >>=
            Ledger.even.pool.lowerQuote .quote)) ∧
    ∃ trade receipt next, (⟨0.0, 0.5, 8⟩ : Arbitrageur).findTrade Ledger.even.pool
        Ledger.even.balances 1.1 600 = .ok (some trade) ∧
      Ledger.even.pool.swap Ledger.even.balances (.index trade.side.index) trade.amount
        Ledger.even.supply 600 ⟨none, some Limits.maxSlippage, some Limits.maxFee⟩ =
          .ok (receipt, next) ∧ receipt.quote.output = trade.output := by
  obtain ⟨hcarried, hrefused, hkind, hfound⟩ :=
    quote_agrees Ledger.even.pool Ledger.even.balances 600
  refine ⟨?_, ?_, ?_, ?_⟩
  · obtain ⟨⟨receipt, next⟩, hswap, hmaker⟩ := exists_of_any
      (Ledger.even.pool.swap Ledger.even.balances (.index 0) 1_000_000 Ledger.even.supply 600
        ⟨none, none, some Limits.maxFee⟩) (fun result ↦ 0 < result.1.quote.makerFee)
      (by decide +kernel)
    exact ⟨receipt, next, hswap, (hcarried _ _ _ _ _ _ hswap).1, of_decide_eq_true hmaker⟩
  · have hzero : Ledger.even.pool.quote Ledger.even.balances (.index 0) 0 600 none =
        .error (.zeroAmount .swap) := by decide +kernel
    exact ⟨hzero, hrefused _ _ _ hzero _ _⟩
  · obtain ⟨pools, hpools, -⟩ := exists_of_any
      (Ledger.even.pool.lift Ledger.even.balances) (fun _ ↦ true) (by decide +kernel)
    obtain ⟨dec, hdec, -⟩ := exists_of_any
      (Decimal.ofTokens 1_000_000 (Ledger.even.pool.precision .base)) (fun _ ↦ true)
      (by decide +kernel)
    exact ⟨pools, dec, hpools, hkind (.index 0) 1_000_000 .base pools dec rfl hpools hdec
      ⟨none, none, some (Ledger.even.pool.state, Ledger.even.pool.params), 600, none⟩ rfl rfl⟩
  · obtain ⟨found, htrade, hcarriedOut⟩ := exists_of_any
      ((⟨0.0, 0.5, 8⟩ : Arbitrageur).findTrade Ledger.even.pool Ledger.even.balances 1.1 600)
      (fun found ↦ found.any fun trade ↦ (Ledger.even.pool.swap Ledger.even.balances
        (.index trade.side.index) trade.amount Ledger.even.supply 600
        ⟨none, some Limits.maxSlippage, some Limits.maxFee⟩).toOption.any fun _ ↦ true)
      (by decide +kernel)
    obtain ⟨trade, rfl, hswap⟩ := (Option.any_eq_true _ _).mp hcarriedOut
    obtain ⟨⟨receipt, next⟩, hswap, -⟩ := exists_of_any _ _ hswap
    exact ⟨trade, receipt, next, htrade, hswap, (hfound _ _ _ htrade).2 _ _ _ _ hswap⟩

end Pool

end ConcentratedPool
