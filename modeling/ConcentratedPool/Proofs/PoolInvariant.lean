import ConcentratedPool.Proofs.ParameterRanges
import ConcentratedPool.Proofs.PoolOperations

/-!
# The invariant of a pool

`Pool.InRange` is what holds of a pool whatever has been done to it: its price scale is positive,
its parameters and its promotion are in their ranges, and its accumulated prices are below their
modulus. A new pool has it (`Pool.inRange_create`).

Operations that trade with a pool or fund it leave its parameters and its promotion alone and let
its prices advance: the scale stays positive, the profit does not fall, accumulated prices wrap.
That is `Pool.Advances`, proved once for each such operation; it carries the invariant
(`Pool.Advances.inRange`). Governance changes the parameters and the promotion, within their ranges,
and nothing of the prices (`Pool.KeepsPrices`).
-/

set_option autoImplicit false
set_option relaxedAutoImplicit false

namespace ConcentratedPool.Pool

variable {p next : Pool} {balances : List ℤ} {supply now : ℤ}

/-- What holds of a pool whatever has been done to it. -/
structure InRange (p : Pool) : Prop where
  scale : 0 < p.state.price.scale.raw
  params : p.params.InRange
  promotion : p.state.promotion.InRange
  cumulative : ∀ side, p.cumulative.get side < Limits.cumulativeModulus

/-- A new pool is in range, and it has no profit yet. -/
theorem inRange_create {sources : List AssetSource} {initial : InitialParams} {token : String}
    (h : create sources initial now token = .ok p) :
    p.InRange ∧ p.state.price.profit = .zero := by
  simp only [create, refuse_eq_ok, bind_eq_ok, pure_eq_ok, Decimal.isZero_eq_true] at h
  obtain ⟨_, -, assets, -, hscale, params, hparams, shape, hshape, -, rfl⟩ := h
  have hrange : shape.InRange := (AmpGamma.new_eq_ok.mp hshape).2
  refine ⟨⟨Nat.pos_of_ne_zero hscale, PoolParams.inRange_of_toUpdate hparams, ⟨hrange, hrange⟩,
    fun side ↦ ?_⟩, rfl⟩
  cases side
  · show 0 < Limits.cumulativeModulus
    decide
  · show 0 < Limits.cumulativeModulus
    decide

/-- The parameters that a simulation has unless it is told otherwise, at the price scale one. -/
def usualParams : InitialParams where
  amp := ⟨40_000_000_000_000_000_000, by decide⟩
  gamma := ⟨145_000_000_000_000, by decide⟩
  midFee := ⟨2_600_000_000_000_000, by decide⟩
  outFee := ⟨4_500_000_000_000_000, by decide⟩
  feeGamma := ⟨230_000_000_000_000, by decide⟩
  repegThreshold := ⟨2_000_000_000_000, by decide⟩
  minScaleDelta := ⟨146_000_000_000_000, by decide⟩
  priceScale := .one
  halfTime := 600

/-- The pool with the usual parameters, as it is created at the time zero. -/
def usual : Pool where
  assets := ⟨⟨"uusd", 6⟩, ⟨"uluna", 6⟩⟩
  params := PoolParams.unset.merge usualParams.toUpdate
  state := ⟨.rest ⟨usualParams.amp, usualParams.gamma⟩ 0, .start .one 0⟩
  accumulated := 0
  cumulative := ⟨0, 0⟩
  liquidityToken := "shares"

/-- The usual pool is created. -/
theorem create_usual :
    create [.known ⟨"uusd", 6⟩, .known ⟨"uluna", 6⟩] usualParams 0 "shares" = .ok usual := rfl

/-! ### Operations that let the prices advance -/

/-- The frame of the operations that trade with a pool or fund it. -/
structure Advances (p next : Pool) : Prop where
  params : next.params = p.params
  promotion : next.state.promotion = p.state.promotion
  scale : 0 < p.state.price.scale.raw → 0 < next.state.price.scale.raw
  profit : p.state.price.profit ≤ next.state.price.profit
  cumulative : next.cumulative = p.cumulative ∨
    ∀ side, next.cumulative.get side < Limits.cumulativeModulus

/-- Where the prices advance, the invariant stays. -/
theorem Advances.inRange (h : p.Advances next) (hp : p.InRange) : next.InRange := by
  refine ⟨h.scale hp.scale, ?_, ?_, fun side ↦ ?_⟩
  · rw [h.params]
    exact hp.params
  · rw [h.promotion]
    exact hp.promotion
  · rcases h.cumulative with hsame | hwrapped
    · rw [hsame]
      exact hp.cumulative side
    · exact hwrapped side

/-- An accumulation lets the prices advance, and leaves the price state as it is. -/
theorem advances_accumulate {price : Decimal} (h : p.accumulate now price = .ok next) :
    p.Advances next ∧ next.state = p.state := by
  obtain ⟨_, _, rfl, hcumulative⟩ := exists_eq_of_accumulate h
  exact ⟨⟨rfl, rfl, id, Nat.le_refl _, hcumulative⟩, rfl⟩

/-- Another virtual capital is no matter of the invariant. -/
theorem advances_withCapital (p : Pool) (capital : Decimal) : p.Advances (p.withCapital capital) :=
  ⟨rfl, rfl, id, Nat.le_refl _, .inl rfl⟩

/-- A price update with the accumulation after it lets the prices advance. -/
theorem advances_of_update {shares last real : Decimal} {xs : List Decimal} {price : PriceState}
    {outcome : Except Fault Bool}
    (hupdate : p.state.price.update p.params (p.state.promotion.effective now) now shares xs last =
      (price, outcome))
    (haccumulate : accumulate { p with state.price := price } now real = .ok next) :
    p.Advances next := by
  obtain ⟨hadvances, hstate⟩ := advances_accumulate haccumulate
  refine ⟨hadvances.params, ?_, fun hscale ↦ ?_, ?_, hadvances.cumulative⟩
  · rw [hstate]
  · rw [hstate]
    rcases PriceState.scale_eq_or_pos_of_update hupdate with hsame | hpos
    · show 0 < price.scale.raw
      rw [hsame]
      exact hscale
    · exact hpos
  · rw [hstate]
    exact PriceState.profit_le_of_update hupdate

/-- A swap lets the prices advance. -/
theorem SwapTrace.advances {offer : Offer} {amount : ℤ} {terms : SwapTerms} {receipt : TradeReceipt}
    (trace : SwapTrace p balances offer amount supply now terms receipt next) : p.Advances next :=
  advances_of_update trace.hupdate trace.haccumulate

/-- A deposit lets the prices advance, provided that the first one, which starts the profit at one,
finds no more than that. -/
theorem DepositEnds.advances {shares : Decimal} {quote : DepositQuote} {receipt : DepositReceipt}
    (h : DepositEnds p now shares quote receipt next)
    (hfirst : quote.isFirst = true → p.state.price.profit ≤ .one) : p.Advances next := by
  cases h with
  | first hisFirst => exact ⟨rfl, rfl, id, hfirst hisFirst, .inl rfl⟩
  | even => exact advances_withCapital p _
  | uneven _ _ _ _ hupdate haccumulate => exact advances_of_update hupdate haccumulate

/-- A withdrawal lets the prices advance. -/
theorem WithdrawalTrace.advances {burn : ℤ} {refunds : Pair ℕ}
    (trace : WithdrawalTrace p balances burn supply now refunds next) : p.Advances next := by
  rw [trace.hnext]
  exact advances_withCapital p _

/-! ### Operations that leave the prices alone -/

/-- The frame of governance and of a bare accumulation: the invariant is kept, and the price state
stays as it is. -/
structure KeepsPrices (p next : Pool) : Prop where
  inRange : p.InRange → next.InRange
  price : next.state.price = p.state.price

/-- A promotion that is started leaves the prices alone. -/
theorem keepsPrices_promote {request : PromotionRequest}
    (h : p.promote request now = .ok next) : p.KeepsPrices next := by
  simp only [promote, bind_eq_ok, pure_eq_ok] at h
  obtain ⟨promotion, hstart, rfl⟩ := h
  refine ⟨fun hp ↦ ?_, rfl⟩
  exact ⟨hp.scale, hp.params, Promotion.inRange_start hp.promotion hstart, hp.cumulative⟩

/-- A promotion that is stopped leaves the prices alone. -/
theorem keepsPrices_stopPromotion (h : p.stopPromotion now = .ok next) : p.KeepsPrices next := by
  simp only [stopPromotion, bind_eq_ok, pure_eq_ok] at h
  obtain ⟨promotion, hstop, rfl⟩ := h
  refine ⟨fun hp ↦ ?_, rfl⟩
  exact ⟨hp.scale, hp.params, Promotion.inRange_stop hp.promotion hstop, hp.cumulative⟩

/-- An update of the parameters leaves the prices alone. -/
theorem keepsPrices_updateParams {update : ParamUpdate}
    (h : p.updateParams update = .ok next) : p.KeepsPrices next := by
  simp only [updateParams, bind_eq_ok, pure_eq_ok] at h
  obtain ⟨params, hparams, rfl⟩ := h
  refine ⟨fun hp ↦ ?_, rfl⟩
  exact ⟨hp.scale, PoolParams.inRange_update hp.params hparams, hp.promotion, hp.cumulative⟩

/-- An accumulation by itself leaves the prices alone. -/
theorem keepsPrices_accumulate {price : Decimal} (h : p.accumulate now price = .ok next) :
    p.KeepsPrices next := by
  obtain ⟨hadvances, hstate⟩ := advances_accumulate h
  exact ⟨hadvances.inRange, congrArg PoolState.price hstate⟩

end ConcentratedPool.Pool
