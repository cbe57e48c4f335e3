import ConcentratedPool.Proofs.PoolInvariant
import ConcentratedPool.Swap

/-!
# The two assets of a pool are alike

At the price scale one, a pool does not know its two assets apart: a swap that asks for one of them
comes to the same as the swap that asks for the other one of the pool with the balances exchanged,
in every amount and in every refusal (`quoteSwap_exchange`). Every rounding has to agree, so this is
an equation between computations and not a statement about their values.

Exchange is carried through the chain from below: the checked sums and products commute, so the
coefficients of the curve, `F` and its derivatives are the same after an exchange
(`Curve.coefficients_exchange`), therefore each step of the two solvers is, and their runs are. Only
the derivative by a balance has to be told which balance is meant, and it takes the other one.
-/

set_option autoImplicit false
set_option relaxedAutoImplicit false

namespace ConcentratedPool

/-! ### Pairs with their sides exchanged -/

namespace Pair

variable {α β : Type}

/-- A pair with its two sides exchanged. -/
def exchange (p : Pair α) : Pair α := ⟨p.quote, p.base⟩

@[simp] theorem exchange_base (p : Pair α) : p.exchange.base = p.quote := rfl

@[simp] theorem exchange_quote (p : Pair α) : p.exchange.quote = p.base := rfl

@[simp] theorem get_exchange (p : Pair α) (side : Side) :
    p.exchange.get side = p.get side.other := by
  cases side <;> rfl

@[simp] theorem set_exchange (p : Pair α) (side : Side) (a : α) :
    p.exchange.set side a = (p.set side.other a).exchange := by
  cases side <;> rfl

@[simp] theorem map_exchange (f : α → β) (p : Pair α) : p.exchange.map f = (p.map f).exchange :=
  rfl

theorem any_exchange (test : α → Bool) (p : Pair α) : p.exchange.any test = p.any test :=
  Bool.or_comm _ _

end Pair

/-! ### Sums and products -/

theorem Decimal.add_comm (a b : Decimal) : (a + b : Except Fault Decimal) = b + a :=
  congrArg ofNatRaw (Nat.add_comm _ _)

theorem Decimal.mul_comm (a b : Decimal) : (a * b : Except Fault Decimal) = b * a := by
  change ofNatRaw (a.raw * b.raw / scale) = ofNatRaw (b.raw * a.raw / scale)
  rw [Nat.mul_comm]

theorem SignedDecimal.add_comm (a b : SignedDecimal) :
    (a + b : Except Fault SignedDecimal) = b + a :=
  congrArg ofRaw (Int.add_comm _ _)

theorem SignedDecimal.mul_comm (a b : SignedDecimal) :
    (a * b : Except Fault SignedDecimal) = b * a := by
  change ofRaw (Int.tdiv (a.raw * b.raw) Decimal.scale) =
    ofRaw (Int.tdiv (b.raw * a.raw) Decimal.scale)
  rw [Int.mul_comm]

/-! ### The solvers -/

theorem geometricMean_exchange (x : Pair Decimal) : geometricMean x.exchange = geometricMean x := by
  unfold geometricMean
  rw [Pair.exchange_base, Pair.exchange_quote, Decimal.mul_comm]

namespace Curve

variable (c : Curve) (d : SignedDecimal) (x : Pair SignedDecimal)

theorem coefficients_exchange : c.coefficients d x.exchange = c.coefficients d x := by
  unfold coefficients
  rw [Pair.exchange_base, Pair.exchange_quote, SignedDecimal.mul_comm x.quote]

theorem residual_exchange : c.residual d x.exchange = c.residual d x := by
  unfold residual
  rw [coefficients_exchange, Pair.exchange_base, Pair.exchange_quote,
    SignedDecimal.mul_comm x.quote, SignedDecimal.add_comm x.quote]

theorem slopeInvariant_exchange : c.slopeInvariant d x.exchange = c.slopeInvariant d x := by
  unfold slopeInvariant
  rw [coefficients_exchange, Pair.exchange_base, Pair.exchange_quote,
    SignedDecimal.add_comm x.quote]

/-- The derivative by a balance is the one by the other balance of the exchanged pair. -/
theorem slopeBalance_exchange (side : Side) :
    c.slopeBalance d x.exchange side = c.slopeBalance d x side.other := by
  unfold slopeBalance
  rw [coefficients_exchange, Pair.exchange_base, Pair.exchange_quote, Pair.get_exchange,
    Pair.get_exchange, SignedDecimal.add_comm x.quote]

theorem stepInvariant_exchange : c.stepInvariant x.exchange d = c.stepInvariant x d := by
  unfold stepInvariant
  rw [residual_exchange, slopeInvariant_exchange]

theorem stepBalance_exchange (side : Side) (y : SignedDecimal) :
    c.stepBalance x.exchange d side y = c.stepBalance x d side.other y := by
  unfold stepBalance
  simp only [Pair.set_exchange, residual_exchange, slopeBalance_exchange]

theorem solveInvariant_exchange (x : Pair Decimal) :
    c.solveInvariant x.exchange = c.solveInvariant x := by
  have hstep : c.stepInvariant (x.map Decimal.toSigned).exchange =
      c.stepInvariant (x.map Decimal.toSigned) :=
    funext fun d ↦ c.stepInvariant_exchange d _
  unfold solveInvariant
  rw [geometricMean_exchange, Pair.map_exchange, hstep]

theorem solveBalance_exchange (x : Pair Decimal) (d : Decimal) (side : Side) :
    c.solveBalance x.exchange d side = c.solveBalance x d side.other := by
  have hstep : c.stepBalance (x.map Decimal.toSigned).exchange d.toSigned side =
      c.stepBalance (x.map Decimal.toSigned) d.toSigned side.other :=
    funext fun y ↦ c.stepBalance_exchange _ _ side y
  unfold solveBalance
  simp only [Pair.map_exchange, hstep, Pair.get_exchange]

end Curve

namespace AmpGamma

variable (a : AmpGamma)

/-- Two balances are checked alike in both orders. -/
theorem positiveBalances_exchange (x : Pair Decimal) :
    positiveBalances x.exchange.toList =
      (positiveBalances x.toList >>= fun p ↦ .ok p.exchange) := by
  unfold positiveBalances
  simp only [Pair.ofBalances, Pair.ofList?_toList, ok_bind, Pair.any_exchange]
  split_ifs with hzero
  · rfl
  · rfl

theorem invariant_exchange (x : Pair Decimal) :
    a.invariant x.exchange.toList = a.invariant x.toList := by
  unfold invariant
  simp only [positiveBalances_exchange, bind_assoc, ok_bind, a.curve.solveInvariant_exchange]

theorem balance_exchange (x : Pair Decimal) (d : Decimal) (side : Side) :
    a.balance x.exchange.toList d side = a.balance x.toList d side.other := by
  unfold balance
  simp only [positiveBalances_exchange, bind_assoc, ok_bind, a.curve.solveBalance_exchange]

end AmpGamma

/-! ### Fees -/

namespace Fee

theorem skew_exchange (x : Pair Decimal) : skew x.exchange = skew x := by
  unfold skew
  rw [Pair.exchange_base, Pair.exchange_quote, Decimal.add_comm x.quote, Decimal.mul_comm x.quote]

theorem rate_exchange (x : Pair Decimal) (schedule : FeeSchedule) :
    rate x.exchange schedule = rate x schedule := by
  unfold rate outerShare
  rw [skew_exchange]

end Fee

/-! ### Swaps -/

theorem Decimal.mul_one (a : Decimal) : (a * one : Except Fault Decimal) = .ok a := by
  rw [mul_eq_ok]
  exact (Nat.mul_div_cancel _ scale_pos).symm

theorem Decimal.div_one (a : Decimal) : (a / one : Except Fault Decimal) = .ok a := by
  rw [div_eq_ok]
  exact ⟨scale_pos.ne', (Nat.mul_div_cancel _ scale_pos).symm⟩

/-- At the price scale one every amount is already in units of equal value. -/
theorem toValue_one (side : Side) (amount : Decimal) : toValue .one side amount = .ok amount := by
  cases side
  · rfl
  · exact amount.mul_one

theorem ofValue_one (side : Side) (amount : Decimal) : ofValue .one side amount = .ok amount := by
  cases side
  · rfl
  · exact amount.div_one

theorem idealOutput_one (ask : Side) (offer : Decimal) :
    idealOutput .one ask offer = .ok offer := by
  cases ask
  · exact toValue_one .quote offer
  · exact ofValue_one .quote offer

theorem scaledBalances_one (pools : Pair Decimal) : scaledBalances .one pools = .ok pools := by
  unfold scaledBalances
  rw [toValue_one]
  rfl

/-- The curve gives out the same for the exchanged balances, and leaves the exchanged ones. -/
theorem curveOutput_exchange (shape : AmpGamma) (pools : Pair Decimal) (offer : Decimal)
    (ask : Side) :
    curveOutput shape .one pools.exchange offer ask =
      (curveOutput shape .one pools offer ask.other >>= fun output ↦
        .ok (output.1, output.2.exchange)) := by
  unfold curveOutput
  simp only [scaledBalances_one, toValue_one, ok_bind, AmpGamma.invariant_exchange, bind_assoc,
    Pair.get_exchange, Pair.set_exchange, Side.other_other, AmpGamma.balance_exchange]
  refine bind_congr fun d ↦ bind_congr fun total ↦ bind_congr fun y ↦ ?_
  split_ifs with hnone
  · rfl
  · rw [bind_assoc]
    rfl

/-- Mirror symmetry. In a state with the price scale one, a swap that asks for one side comes to the
same as the swap that asks for the other side of the exchanged balances, amounts and refusals alike.
Below it, for all curve parameters: the invariant does not depend on the order of the balances, and
the balance that keeps an invariant is the same on the exchanged side. -/
theorem quoteSwap_exchange :
    (∀ (state : PoolState) (params : PoolParams) (a b offer : Decimal) (now : ℤ)
      (makerShare : Decimal), state.price.scale = .one →
      quoteSwap state params ⟨a, b⟩ offer .quote now makerShare =
        quoteSwap state params ⟨b, a⟩ offer .base now makerShare) ∧
    (∀ (shape : AmpGamma) (a b : Decimal), shape.invariant [a, b] = shape.invariant [b, a]) ∧
    ∀ (shape : AmpGamma) (a b d : Decimal) (side : Side),
      shape.balance [a, b] d side = shape.balance [b, a] d side.other := by
  refine ⟨?_, ?_, ?_⟩
  · intro state params a b offer now makerShare hscale
    have hcurve := curveOutput_exchange (state.promotion.effective now) ⟨b, a⟩ offer .quote
    unfold quoteSwap
    rw [hscale]
    simp only [ofValue_one, idealOutput_one, ok_bind]
    rw [show (⟨a, b⟩ : Pair Decimal) = Pair.exchange ⟨b, a⟩ from rfl, hcurve]
    simp only [bind_assoc, ok_bind, Fee.rate_exchange]
    rfl
  · intro shape a b
    exact shape.invariant_exchange ⟨b, a⟩
  · intro shape a b d side
    exact shape.balance_exchange ⟨b, a⟩ d side

/-- Balances of three and of ten units. -/
def lopsided : Pair Decimal := ⟨.three, .ten⟩

/-- The usual pool stands at the price scale one, and trades a unit for lopsided balances in the one
direction as it does in the other for the exchanged ones. -/
theorem quoteSwap_exchange_usual :
    Pool.usual.state.price.scale = .one ∧
      ∃ q, quoteSwap Pool.usual.state Pool.usual.params lopsided .one .quote 0 .zero = .ok q ∧
        quoteSwap Pool.usual.state Pool.usual.params lopsided.exchange .one .base 0 .zero =
          .ok q := by
  refine ⟨rfl, ?_⟩
  obtain ⟨q, hq, -⟩ := exists_of_any
    (quoteSwap Pool.usual.state Pool.usual.params lopsided .one .quote 0 .zero)
    (fun _ ↦ true) (by decide +kernel)
  have hsame := quoteSwap_exchange.1 Pool.usual.state Pool.usual.params lopsided.base
    lopsided.quote .one 0 .zero rfl
  exact ⟨q, hq, hsame ▸ hq⟩

end ConcentratedPool
