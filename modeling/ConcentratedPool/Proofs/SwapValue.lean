import ConcentratedPool.Proofs.ExactCurve
import ConcentratedPool.Proofs.LedgerSolvency

/-!
# What a swap leaves in the pool

A swap moves the pool to a point that two chained solvers choose: the invariant `D` of the balances,
and the balance of the asked asset that keeps `D` with the offer (`Pool.swapPoint`). Everything
after that, the conversion at the price scale, the fee and the flooring to token units, goes to the
pool: on both sides the ledger keeps at least the balance of that point (`Pool.SwapTrace.point_le`).
So the balances that a swap leaves support every invariant that the point supports.

What is left between the invariants before and after a swap are the errors of the two solvers. Each
stops as soon as one step is within the tolerance, which does not place it within the tolerance of a
root. Where their errors add up to no more than twice the tolerance, the invariant falls by no more
than that (`Ledger.invariant_le_of_swap`). Where they do not, it can fall by much more, and the
trader takes the difference (`Ledger.invariant_falls_of_swap_skewed`).
-/

set_option autoImplicit false
set_option relaxedAutoImplicit false

namespace ConcentratedPool

/-! ### Units of equal value -/

section Value

variable {scale : Decimal} {side : Side}

/-- The balances in units of equal value, side by side. -/
theorem of_scaledBalances {pools x : Pair Decimal} (h : scaledBalances scale pools = .ok x)
    (side : Side) : toValue scale side (pools.get side) = .ok (x.get side) := by
  simp only [scaledBalances, bind_eq_ok, pure_eq_ok] at h
  obtain ⟨_, hquote, rfl⟩ := h
  cases side
  · rfl
  · exact hquote

/-- The value of two amounts together is not below the sum of their values. -/
theorem add_le_of_toValue {a b c x y z : Decimal} (hx : toValue scale side a = .ok x)
    (hy : toValue scale side b = .ok y) (hz : toValue scale side c = .ok z)
    (habc : a.raw + b.raw ≤ c.raw) : x.raw + y.raw ≤ z.raw := by
  cases side with
  | base =>
    cases hx
    cases hy
    cases hz
    exact habc
  | quote =>
    rw [Decimal.mul_eq_ok.mp hz, Nat.le_div_iff_mul_le Decimal.scale_pos, Nat.add_mul]
    calc x.raw * Decimal.scale + y.raw * Decimal.scale
        ≤ a.raw * scale.raw + b.raw * scale.raw :=
          Nat.add_le_add (Decimal.mul_raw_le hx) (Decimal.mul_raw_le hy)
      _ = (a.raw + b.raw) * scale.raw := (Nat.add_mul _ _ _).symm
      _ ≤ c.raw * scale.raw := Nat.mul_le_mul_right _ habc

/-- Taking out what a value converts to leaves at least the rest of the value. -/
theorem le_add_of_ofValue {a c gross x z value : Decimal} (hx : toValue scale side a = .ok x)
    (hgross : ofValue scale side value = .ok gross) (hz : toValue scale side c = .ok z)
    (hac : a.raw ≤ c.raw + gross.raw) : x.raw ≤ z.raw + value.raw := by
  cases side with
  | base =>
    cases hx
    cases hgross
    cases hz
    exact hac
  | quote =>
    have hscaled : (x.raw - value.raw) * Decimal.scale ≤ c.raw * scale.raw := by
      have hout : gross.raw * scale.raw ≤ value.raw * Decimal.scale := Decimal.div_raw_le hgross
      have hin : x.raw * Decimal.scale ≤ c.raw * scale.raw + gross.raw * scale.raw :=
        calc x.raw * Decimal.scale ≤ a.raw * scale.raw := Decimal.mul_raw_le hx
          _ ≤ (c.raw + gross.raw) * scale.raw := Nat.mul_le_mul_right _ hac
          _ = c.raw * scale.raw + gross.raw * scale.raw := Nat.add_mul _ _ _
      rw [Nat.sub_mul]
      omega
    have hleft : x.raw - value.raw ≤ z.raw := by
      rw [Decimal.mul_eq_ok.mp hz]
      exact (Nat.le_div_iff_mul_le Decimal.scale_pos).mpr hscaled
    omega

end Value

/-! ### The point that the solvers choose -/

/-- The point to which the curve takes a swap: the offer has come in, and the output has gone out.
The balance of the asked asset there is the one that belongs to the invariant. -/
theorem of_curveOutput {shape : AmpGamma} {scale offer value : Decimal} {pools left : Pair Decimal}
    {ask : Side} (h : curveOutput shape scale pools offer ask = .ok (value, left)) :
    ∃ x d offered, scaledBalances scale pools = .ok x ∧ shape.invariant x.toList = .ok d ∧
      toValue scale ask.other offer = .ok offered ∧
      shape.balance (x.set ask.other (left.get ask.other)).toList d ask = .ok (left.get ask) ∧
      (left.get ask.other).raw = (x.get ask.other).raw + offered.raw ∧
      value.raw + (left.get ask).raw = (x.get ask).raw := by
  simp only [curveOutput, refuse_eq_ok, bind_eq_ok, pure_eq_ok, Prod.mk.injEq, Decimal.add_eq_ok,
    Decimal.sub_eq_ok, Pair.get_set_of_other] at h
  obtain ⟨x, hx, d, hd, offered, hoffered, total, htotal, y, hy, -, _, hvalue, rfl, rfl⟩ := h
  refine ⟨x, d, offered, hx, hd, hoffered, ?_, ?_, ?_⟩
  · rw [Pair.get_set_other, Pair.get_set_self, Pair.get_set_self]
    exact hy
  · rw [Pair.get_set_other, Pair.get_set_self]
    exact htotal
  · rw [Pair.get_set_self]
    exact hvalue

section Quote

variable {state : PoolState} {params : PoolParams} {pools : Pair Decimal}
variable {offer makerShare : Decimal} {ask : Side} {now : ℤ} {q : SwapQuote}

/-- The intermediate results of a swap that was priced. -/
structure QuoteTrace (state : PoolState) (params : PoolParams) (pools : Pair Decimal)
    (offer : Decimal) (ask : Side) (now : ℤ) (makerShare : Decimal) (q : SwapQuote) where
  value : Decimal
  left : Pair Decimal
  gross : Decimal
  ideal : Decimal
  poolFee : Decimal
  hcurve : curveOutput (state.promotion.effective now) state.price.scale pools offer ask =
    .ok (value, left)
  hgross : ofValue state.price.scale ask value = .ok gross
  hideal : idealOutput state.price.scale ask offer = .ok ideal
  hrate : Fee.rate left params.fees = .ok q.rate
  hfee : (gross * q.rate : Except Fault Decimal) = .ok q.fee
  houtput : (gross - q.fee : Except Fault Decimal) = .ok q.output
  hpos : 0 < q.output.raw
  hsplit : Fee.split q.fee makerShare = .ok (q.makerFee, poolFee)
  hspread : q.spread = ideal.monus gross

/-- A swap that was priced has a trace. -/
theorem nonempty_quoteTrace
    (h : quoteSwap state params pools offer ask now makerShare = .ok q) :
    Nonempty (QuoteTrace state params pools offer ask now makerShare q) := by
  simp only [quoteSwap, refuse_eq_ok, bind_eq_ok, pure_eq_ok, Prod.exists,
    Decimal.isZero_eq_true] at h
  obtain ⟨value, left, hcurve, gross, hgross, ideal, hideal, rate, hrate, fee, hfee, output,
    houtput, hpos, makerFee, poolFee, hsplit, rfl⟩ := h
  exact ⟨⟨value, left, gross, ideal, poolFee, hcurve, hgross, hideal, hrate, hfee, houtput,
    Nat.pos_of_ne_zero hpos, hsplit, rfl⟩⟩

/-- Both parts of a fee that is split add up to it. -/
theorem Fee.add_eq_of_split {fee makerFee poolFee : Decimal}
    (h : Fee.split fee makerShare = .ok (makerFee, poolFee)) :
    makerFee.raw + poolFee.raw = fee.raw := by
  simp only [Fee.split, bind_eq_ok, pure_eq_ok, Prod.mk.injEq] at h
  obtain ⟨maker, -, rest, hrest, rfl, rfl⟩ := h
  rw [Nat.add_comm]
  exact Decimal.sub_eq_ok.mp hrest

/-- The output and the fee of a quote add up to what the curve gives out. -/
theorem QuoteTrace.output_add_fee
    (trace : QuoteTrace state params pools offer ask now makerShare q) :
    q.output.raw + q.fee.raw = trace.gross.raw :=
  Decimal.sub_eq_ok.mp trace.houtput

/-- The output and the maker's fee of a quote are together no more than what the curve gives out. -/
theorem of_quoteSwap (h : quoteSwap state params pools offer ask now makerShare = .ok q) :
    ∃ value left gross,
      curveOutput (state.promotion.effective now) state.price.scale pools offer ask =
        .ok (value, left) ∧
      ofValue state.price.scale ask value = .ok gross ∧
      q.output.raw + q.makerFee.raw ≤ gross.raw := by
  obtain ⟨trace⟩ := nonempty_quoteTrace h
  have hsum := trace.output_add_fee
  have hsplit := Fee.add_eq_of_split trace.hsplit
  exact ⟨trace.value, trace.left, trace.gross, trace.hcurve, trace.hgross, by omega⟩

end Quote

namespace Pool

/-- The balances in units of equal value, at the price scale in force. -/
def valued (p : Pool) (balances : List ℤ) : Except Fault (Pair Decimal) := do
  scaledBalances p.state.price.scale (← p.lift balances)

/-- The point of the curve to which the solvers take a swap, in units of equal value. -/
def swapPoint (p : Pool) (balances : List ℤ) (side : Side) (amount now : ℤ) :
    Except Fault (Pair Decimal) := do
  let (pools, dec) ← p.liftOffer balances side amount
  let (_, left) ← curveOutput (p.state.promotion.effective now) p.state.price.scale pools dec
    side.other
  return left

variable {p next : Pool} {balances : List ℤ} {supply now : ℤ}

/-- Balances in units of equal value come from two amounts, side by side. -/
theorem exists_of_valued {x : Pair Decimal} (h : p.valued balances = .ok x) :
    ∃ pair : Pair ℤ, ∃ pools : Pair Decimal, balances = pair.toList ∧
      ∀ side, ((pools.get side).raw : ℤ) = pair.get side * p.unit side ∧
        toValue p.state.price.scale side (pools.get side) = .ok (x.get side) := by
  simp only [valued, bind_eq_ok] at h
  obtain ⟨pools, hlift, hscaled⟩ := h
  obtain ⟨pair, hpair, hraw⟩ := exists_of_lift hlift
  exact ⟨pair, pools, hpair, fun side ↦ ⟨(hraw side).2, of_scaledBalances hscaled side⟩⟩

/-- The invariant of two balances is that of the balances in units of equal value. -/
theorem exists_of_invariant {d : Decimal} (h : p.invariant balances now = .ok d) :
    ∃ x, p.valued balances = .ok x ∧
      (p.state.promotion.effective now).invariant x.toList = .ok d := by
  simp only [invariant, bind_eq_ok] at h
  obtain ⟨pools, hpools, x, hx, hd⟩ := h
  refine ⟨x, ?_, hd⟩
  simp only [valued, bind_eq_ok]
  exact ⟨pools, hpools, hx⟩

/-- The asked balance of the point of a swap is what the balance solver makes of the invariant
before the swap. -/
theorem exists_balance_of_swapPoint {side : Side} {amount : ℤ} {point : Pair Decimal} {d : Decimal}
    (hpoint : p.swapPoint balances side amount now = .ok point)
    (hd : p.invariant balances now = .ok d) :
    ∃ x : Pair Decimal, x.get side = point.get side ∧
      (p.state.promotion.effective now).balance x.toList d side.other =
        .ok (point.get side.other) := by
  simp only [swapPoint, bind_eq_ok, pure_eq_ok, Prod.exists] at hpoint
  obtain ⟨_, _, hlift, _, _, hcurve, rfl⟩ := hpoint
  obtain ⟨x, d₀, _, hx, hd₀, -, hbalance, -, -⟩ := of_curveOutput hcurve
  simp only [liftOffer, bind_eq_ok, pure_eq_ok, Prod.mk.injEq] at hlift
  obtain ⟨pools, hpools, _, _, _, _, rfl, rfl⟩ := hlift
  simp only [invariant, bind_eq_ok] at hd
  obtain ⟨pools', hpools', x', hx', hd'⟩ := hd
  obtain rfl : pools = pools' := Except.ok.inj (hpools.symm.trans hpools')
  obtain rfl : x = x' := Except.ok.inj (hx.symm.trans hx')
  obtain rfl : d = d₀ := Except.ok.inj (hd'.symm.trans hd₀)
  rw [Side.other_other] at hbalance
  exact ⟨_, Pair.get_set_self _ _ _, hbalance⟩

section Booked

variable {offer : Offer} {amount : ℤ} {terms : SwapTerms} {receipt : TradeReceipt} {pair : Pair ℤ}

/-- The booked balance of the offered asset holds the offer. -/
theorem SwapTrace.add_le_booked
    (trace : SwapTrace p balances offer amount supply now terms receipt next)
    (hpair : balances = pair.toList) {kept : Decimal}
    (hkept : (kept.raw : ℤ) =
      (Ledger.afterSwap pair receipt).get receipt.side * p.unit receipt.side) :
    (trace.pools.get receipt.side).raw + trace.dec.raw ≤ kept.raw := by
  obtain ⟨lifted, hlifted, -, hdec, hraw⟩ := exists_of_liftOffer trace.hlift
  obtain rfl : pair = lifted := Pair.toList_inj.mp (hpair.symm.trans hlifted)
  have hbooked : (Ledger.afterSwap pair receipt).get receipt.side =
      pair.get receipt.side + amount := by
    rw [Ledger.afterSwap, Pair.get_set_of_other, Pair.get_set_self, trace.hamount]
  rw [hbooked, add_mul, ← (hraw receipt.side).2, ← hdec] at hkept
  omega

/-- The booked balance of the asked asset lacks no more than the output and the maker's fee, which
were floored to token units. -/
theorem SwapTrace.le_booked_add
    (trace : SwapTrace p balances offer amount supply now terms receipt next)
    (hpair : balances = pair.toList) {kept : Decimal}
    (hkept : (kept.raw : ℤ) =
      (Ledger.afterSwap pair receipt).get receipt.side.other * p.unit receipt.side.other) :
    (trace.pools.get receipt.side.other).raw ≤
      kept.raw + (trace.quote.output.raw + trace.quote.makerFee.raw) := by
  obtain ⟨lifted, hlifted, -, -, hraw⟩ := exists_of_liftOffer trace.hlift
  obtain rfl : pair = lifted := Pair.toList_inj.mp (hpair.symm.trans hlifted)
  obtain ⟨houtput, hmaker⟩ := of_lowerQuote trace.hlower
  have hbooked : (Ledger.afterSwap pair receipt).get receipt.side.other =
      pair.get receipt.side.other - (receipt.quote.output + receipt.quote.makerFee) := by
    rw [Ledger.afterSwap, Pair.get_set_self]
  rw [hbooked, sub_mul, add_mul, ← (hraw receipt.side.other).2] at hkept
  zify at houtput hmaker ⊢
  linarith

/-- On both sides the booked balance is worth at least that of the point which the solvers chose. -/
theorem SwapTrace.point_le
    (trace : SwapTrace p balances offer amount supply now terms receipt next)
    (hpair : balances = pair.toList) {after : Pair Decimal}
    (hafter : p.valued (Ledger.afterSwap pair receipt).toList = .ok after) :
    ∃ point, p.swapPoint balances receipt.side amount now = .ok point ∧
      ∀ side, (point.get side).raw ≤ (after.get side).raw := by
  obtain ⟨value, point, gross, hcurve, hgross, hout⟩ := of_quoteSwap trace.hquote
  obtain ⟨x, d, offered, hx, -, hoffered, -, hofferSide, haskSide⟩ := of_curveOutput hcurve
  obtain ⟨kept, pools, hkept, hpools⟩ := exists_of_valued hafter
  obtain rfl : Ledger.afterSwap pair receipt = kept := Pair.toList_inj.mp hkept
  rw [Side.other_other] at hoffered hofferSide
  refine ⟨point, ?_, fun side ↦ ?_⟩
  · simp only [swapPoint, bind_eq_ok, pure_eq_ok, Prod.exists]
    exact ⟨_, _, trace.hlift, _, _, hcurve, rfl⟩
  -- On the offered side the offer is converted by itself, on the asked side the output is; both
  -- conversions round against the trader.
  rcases receipt.side.eq_or_eq_other side with rfl | rfl
  · obtain ⟨hraw, hvalue⟩ := hpools receipt.side
    rw [hofferSide]
    exact add_le_of_toValue (of_scaledBalances hx receipt.side) hoffered hvalue
      (trace.add_le_booked hpair hraw)
  · obtain ⟨hraw, hvalue⟩ := hpools receipt.side.other
    have hwent : (trace.pools.get receipt.side.other).raw ≤
        (pools.get receipt.side.other).raw + gross.raw :=
      (trace.le_booked_add hpair hraw).trans (Nat.add_le_add_left hout _)
    have hleft :=
      le_add_of_ofValue (of_scaledBalances hx receipt.side.other) hgross hvalue hwent
    omega

end Booked

end Pool

namespace Ledger

variable {l next : Ledger} {offer : Offer} {amount now : ℤ} {terms : SwapTerms}
variable {receipt : TradeReceipt}

/-- A swap whose balances have invariants has a point, on both sides of which the booked balances
are worth no less. -/
theorem exists_point_of_swap {after : Pair Decimal}
    (h : l.swap offer amount now terms = .ok (receipt, next))
    (hafter : l.pool.valued next.balances = .ok after) :
    ∃ point, l.pool.swapPoint l.balances receipt.side amount now = .ok point ∧
      ∀ side, (point.get side).raw ≤ (after.get side).raw := by
  obtain ⟨pool, pair, ⟨trace⟩, hpair, -, -, rfl⟩ := exists_of_swap h
  exact trace.point_le hpair hafter

/-- The balances that a swap leaves support every invariant that the point of the solvers supports,
whose asked balance is solved from the old invariant `d`. So the invariant falls by no more than the
errors of the two solvers, `ε` of the balance and `δ` of the new invariant `d'`: where these are
together at most twice the tolerance, so is the fall. Assumes: both invariants are computed with the
curve and the price scale in force before the swap. -/
theorem invariant_le_of_swap {d d' : Decimal}
    (hswap : l.swap offer amount now terms = .ok (receipt, next))
    (hbefore : l.pool.invariant l.balances now = .ok d)
    (hafter : l.pool.invariant next.balances now = .ok d') :
    ∃ point after, l.pool.swapPoint l.balances receipt.side amount now = .ok point ∧
      l.pool.valued next.balances = .ok after ∧
      (∃ x : Pair Decimal, x.get receipt.side = point.get receipt.side ∧
        (l.pool.state.promotion.effective now).balance x.toList d receipt.side.other =
          .ok (point.get receipt.side.other)) ∧
      (∀ e, 0 < e →
        (l.pool.state.promotion.effective now).Supports e (point.map Decimal.toRat) →
        (l.pool.state.promotion.effective now).Supports e (after.map Decimal.toRat)) ∧
      ∀ ε δ : ℚ, ε + δ ≤ 2 * Limits.tolerance.toRat → 0 < d'.toRat + δ →
        (l.pool.state.promotion.effective now).Supports (d.toRat - ε) (point.map Decimal.toRat) →
        ¬ (l.pool.state.promotion.effective now).Supports (d'.toRat + δ)
          (after.map Decimal.toRat) →
        d.raw ≤ d'.raw + 2 * Limits.tolerance.raw := by
  obtain ⟨after, hvalued, -⟩ := Pool.exists_of_invariant hafter
  obtain ⟨point, hpoint, hle⟩ := exists_point_of_swap hswap hvalued
  have hmono : ∀ side, (point.map Decimal.toRat).get side ≤ (after.map Decimal.toRat).get side := by
    intro side
    rw [Pair.get_map, Pair.get_map]
    exact Decimal.toRat_le_toRat.mpr (hle side)
  have hnonneg : ∀ side, 0 ≤ (point.map Decimal.toRat).get side := by
    intro side
    rw [Pair.get_map]
    exact Decimal.toRat_nonneg _
  refine ⟨point, after, hpoint, hvalued, Pool.exists_balance_of_swapPoint hpoint hbefore, ?_, ?_⟩
  · intro e he hsupports
    exact hsupports.mono he le_rfl hnonneg hmono
  · intro ε δ hsum hpos hkept hreached
    have hroot : d.toRat - ε < d'.toRat + δ := by
      by_contra hfallen
      rw [not_lt] at hfallen
      exact hreached (hkept.mono hpos hfallen hnonneg hmono)
    have hraw : (d.raw : ℚ) < d'.raw + 2 * Limits.tolerance.raw := by
      have hscale : (0 : ℚ) < Decimal.scale := by exact_mod_cast Decimal.scale_pos
      have htotal : d.toRat < d'.toRat + 2 * Limits.tolerance.toRat := by linarith
      unfold Decimal.toRat at htotal
      rw [← mul_div_assoc, ← add_div, div_lt_div_iff_of_pos_right hscale] at htotal
      exact htotal
    exact_mod_cast hraw.le

/-- The usual pool, funded with as much of one asset as of the other. -/
def even : Ledger := (ofPool Pool.usual).run [.deposit [1_000_000_000, 1_000_000_000] 0]

/-- On an even pool both solvers are within their tolerance of the curve, and a swap keeps the
invariant. -/
theorem invariant_le_of_swap_even :
    ∃ receipt next d d', even.swap (.index 0) 1_000_000 600 ⟨none, none, none⟩ =
        .ok (receipt, next) ∧
      even.pool.invariant even.balances 600 = .ok d ∧
      even.pool.invariant next.balances 600 = .ok d' ∧
      d.raw ≤ d'.raw + 2 * Limits.tolerance.raw := by
  obtain ⟨accurate, hrun, haccurate⟩ := exists_of_any (do
    let result ← even.swap (.index 0) 1_000_000 600 ⟨none, none, none⟩
    let d ← even.pool.invariant even.balances 600
    let d' ← even.pool.invariant result.2.balances 600
    let point ← even.pool.swapPoint even.balances result.1.side 1_000_000 600
    let after ← even.pool.valued result.2.balances
    return decide ((even.pool.state.promotion.effective 600).Supports
        (d.toRat - Limits.tolerance.toRat) (point.map Decimal.toRat) ∧
      ¬ (even.pool.state.promotion.effective 600).Supports
        (d'.toRat + Limits.tolerance.toRat) (after.map Decimal.toRat))) (fun b ↦ b)
    (by decide +kernel)
  simp only [bind_eq_ok, pure_eq_ok, Prod.exists] at hrun
  obtain ⟨receipt, next, hswap, d, hd, d', hd', point, hpoint, after, hafter, rfl⟩ := hrun
  obtain ⟨hkept, hreached⟩ := of_decide_eq_true haccurate
  obtain ⟨point', after', hpoint', hafter', -, -, hle⟩ := invariant_le_of_swap hswap hd hd'
  obtain rfl : point = point' := Except.ok.inj (hpoint.symm.trans hpoint')
  obtain rfl : after = after' := Except.ok.inj (hafter.symm.trans hafter')
  have hpos : 0 < d'.toRat + Limits.tolerance.toRat := by
    have htolerance : 0 < Limits.tolerance.toRat := by
      norm_num [Decimal.toRat, Limits.tolerance, Decimal.scale]
    linarith [d'.toRat_nonneg]
  exact ⟨receipt, next, d, d', hswap, hd, hd',
    hle _ _ (two_mul Limits.tolerance.toRat).ge hpos hkept hreached⟩

/-- The usual pool, funded with a hundred times as much of one asset as of the other. -/
def skewed : Ledger := (ofPool Pool.usual).run [.deposit [1_000_000, 100_000_000] 0]

/-- On a skewed pool a swap of one token unit, at the time of the deposit, takes away more than two
percent of the asked asset, and the invariant falls by more than twice the tolerance. The balance
solver is within its tolerance of the curve there; the invariant solver, which stops after a first
step that is small, is not. -/
theorem invariant_falls_of_swap_skewed :
    Pool.create [.known ⟨"uusd", 6⟩, .known ⟨"uluna", 6⟩] Pool.usualParams 0 "shares" =
        .ok Pool.usual ∧
      ∃ receipt next d d' point after, skewed.swap (.index 0) 1 0 ⟨none, none, none⟩ =
          .ok (receipt, next) ∧
        skewed.pool.invariant skewed.balances 0 = .ok d ∧
        skewed.pool.invariant next.balances 0 = .ok d' ∧
        d'.raw + 2 * Limits.tolerance.raw < d.raw ∧
        skewed.pool.swapPoint skewed.balances receipt.side 1 0 = .ok point ∧
        skewed.pool.valued next.balances = .ok after ∧
        (skewed.pool.state.promotion.effective 0).Supports (d.toRat - Limits.tolerance.toRat)
          (point.map Decimal.toRat) ∧
        (skewed.pool.state.promotion.effective 0).Supports (d'.toRat + Limits.tolerance.toRat)
          (after.map Decimal.toRat) := by
  refine ⟨Pool.create_usual, ?_⟩
  obtain ⟨falls, hrun, hfalls⟩ := exists_of_any (do
    let result ← skewed.swap (.index 0) 1 0 ⟨none, none, none⟩
    let d ← skewed.pool.invariant skewed.balances 0
    let d' ← skewed.pool.invariant result.2.balances 0
    let point ← skewed.pool.swapPoint skewed.balances result.1.side 1 0
    let after ← skewed.pool.valued result.2.balances
    return decide (d'.raw + 2 * Limits.tolerance.raw < d.raw ∧
      (skewed.pool.state.promotion.effective 0).Supports
        (d.toRat - Limits.tolerance.toRat) (point.map Decimal.toRat) ∧
      (skewed.pool.state.promotion.effective 0).Supports
        (d'.toRat + Limits.tolerance.toRat) (after.map Decimal.toRat))) (fun b ↦ b)
    (by decide +kernel)
  simp only [bind_eq_ok, pure_eq_ok, Prod.exists] at hrun
  obtain ⟨receipt, next, hswap, d, hd, d', hd', point, hpoint, after, hafter, rfl⟩ := hrun
  obtain ⟨hless, hkept, hmissed⟩ := of_decide_eq_true hfalls
  exact ⟨receipt, next, d, d', point, after, hswap, hd, hd', hless, hpoint, hafter, hkept, hmissed⟩

end Ledger

end ConcentratedPool
