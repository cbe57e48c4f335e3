import ConcentratedPool.Proofs.BalanceAccuracy
import ConcentratedPool.Proofs.SwapValue
import Mathlib.Algebra.Order.Floor.Div

/-!
# More for more

Whether a larger offer buys more. On the exact curve it does: a larger balance of the offered asset
needs less of the asked one to keep the invariant (`AmpGamma.exactResidual_pos_of_lt`). What a swap
pays differs from that by the error of the balance solver, by the conversion at the price scale and
by the fee.

Where both balances are within the tolerance of the root of the curve (`AmpGamma.NearRoot`), the
larger offer makes the curve give out at least as much, less twice the tolerance. That is an amount
in units of equal value; in units of the asked asset it is `toleratedLoss`. The fee rate, though,
is that of the balances which the swap leaves, and rises with how uneven they are, so that from a
larger amount a larger share may be kept: after fees the larger offer can lose what the fee rate has
risen on top (`Ledger.output_le_of_offer_le`), and for a steep fee that is much more than the curve
has gained (`Ledger.output_falls_with_offer`).
-/

set_option autoImplicit false
set_option relaxedAutoImplicit false

namespace ConcentratedPool

/-! ### On the exact curve -/

namespace AmpGamma

variable {a : AmpGamma} {d x x' y y' : ℚ}

/-- The weight is positive wherever it has a value. -/
theorem exactWeight_pos {k : ℚ} (hamp : 0 < a.amp.toRat) (hγ : 0 < a.gamma.toRat) (hk : 0 < k)
    (hgap : a.gamma.toRat + 1 - k ≠ 0) : 0 < a.exactWeight k := by
  unfold exactWeight
  positivity

/-- Balances that support an invariant are together not below it. -/
theorem le_sum_of_supports (hd : 0 < d) (hx : 0 < x) (hy : 0 ≤ y)
    (h : 0 ≤ a.exactResidual d ⟨x, y⟩) : d ≤ x + y := by
  by_contra hsum
  rw [not_le] at hsum
  have hdeep := neg_exactResidual a d x y
  have hpull : 0 ≤ a.exactPull d ⟨x, y⟩ := by
    refine exactPull_nonneg hd.le fun side ↦ ?_
    cases side
    · exact hx.le
    · exact hy
  have hfirst := mul_nonneg (sub_pos.mpr hsum).le hpull
  have hsecond : 0 < (d - (x + y)) * (d + (x + y)) :=
    mul_pos (sub_pos.mpr hsum) (by linarith)
  linarith [sq_nonneg (x - y)]

/-- Where the invariant is below the sum of the balances and `K₀` is not below one, `F` is positive.
At the pole of the weight, where `K₀` is above one, the product of the balances is enough. -/
theorem exactResidual_pos_of_one_le (hamp : 0 < a.amp.toRat) (hγ : 0 < a.gamma.toRat) (hd : 0 < d)
    (hsum : d < x + y) (hone : 1 ≤ exactProduct d ⟨x, y⟩) : 0 < a.exactResidual d ⟨x, y⟩ := by
  have hk : 0 < exactProduct d ⟨x, y⟩ := by linarith
  have hfar : 0 < x + y - d := by linarith
  have hsquare : 0 < d ^ 2 / 4 := by positivity
  have hproductEq : x * y = exactProduct d ⟨x, y⟩ * (d ^ 2 / 4) := by
    unfold exactProduct
    field_simp
  rw [exactResidual_balance, hproductEq]
  by_cases hpole : a.gamma.toRat + 1 - exactProduct d ⟨x, y⟩ = 0
  · have hpull : 0 ≤ a.exactPull d ⟨x, y⟩ * (x + y - d) :=
      mul_nonneg (mul_nonneg (a.exactWeight_nonneg hk.le) hd.le) hfar.le
    have hmore := mul_lt_mul_of_pos_right
      (by linarith : 1 < exactProduct d ⟨x, y⟩) hsquare
    linarith
  · have hpull : 0 < a.exactPull d ⟨x, y⟩ * (x + y - d) :=
      mul_pos (mul_pos (exactWeight_pos hamp hγ hk hpole) hd) hfar
    have hroom := mul_le_mul_of_nonneg_right hone hsquare.le
    linarith

/-- Where balances support an invariant, `F` is positive with more of the one and no less of the
other. -/
theorem exactResidual_pos_of_lt (hamp : 0 < a.amp.toRat) (hγ : 0 < a.gamma.toRat) (hd : 0 < d)
    (hx : 0 < x) (hxx : x ≤ x') (hy : 0 ≤ y) (hyy : y < y')
    (h : 0 ≤ a.exactResidual d ⟨x, y⟩) : 0 < a.exactResidual d ⟨x', y'⟩ := by
  have hsum := le_sum_of_supports hd hx hy h
  rcases le_or_gt 1 (exactProduct d ⟨x', y'⟩) with hone | hless
  · exact exactResidual_pos_of_one_le hamp hγ hd (by linarith) hone
  · have hproduct : x * y < x' * y' :=
      calc x * y ≤ x' * y := mul_le_mul_of_nonneg_right hxx hy
        _ < x' * y' := mul_lt_mul_of_pos_left hyy (hx.trans_le hxx)
    have hk : 0 ≤ exactProduct d ⟨x, y⟩ := by
      unfold exactProduct
      positivity
    have hkk : exactProduct d ⟨x, y⟩ ≤ exactProduct d ⟨x', y'⟩ := by
      unfold exactProduct
      exact div_le_div_of_nonneg_right (by linarith) (by positivity)
    have hweight := a.exactWeight_le hk hkk hless
    have hpull : a.exactPull d ⟨x, y⟩ * (x + y - d) ≤ a.exactPull d ⟨x', y'⟩ * (x' + y' - d) :=
      mul_le_mul (mul_le_mul_of_nonneg_right hweight hd.le) (by linarith) (by linarith)
        (mul_nonneg (a.exactWeight_nonneg (hk.trans hkk)) hd.le)
    rw [exactResidual_balance] at h ⊢
    linarith

/-- Of two balances that are near the root for one invariant, the one beside more of the other asset
is not larger, but for twice the tolerance. -/
theorem NearRoot.le_add (hamp : 0 < a.amp.toRat) (hγ : 0 < a.gamma.toRat) (hd : 0 < d) (hx : 0 < x)
    (hxx : x ≤ x') (hy : 0 ≤ y) (h : a.NearRoot d x y) (h' : a.NearRoot d x' y') :
    y' ≤ y + 2 * Limits.tolerance.toRat := by
  by_contra hover
  rw [not_le] at hover
  have hpos := exactResidual_pos_of_lt hamp hγ hd hx hxx
    (add_nonneg hy Limits.tolerance.toRat_nonneg)
    (by linarith : y + Limits.tolerance.toRat < y' - Limits.tolerance.toRat) h.2
  linarith [h'.1]

end AmpGamma

/-! ### Conversions and fees -/

/-- A quotient of a sum is no more than the quotients, the one rounded down and the other up. -/
theorem add_div_le_ceilDiv (m n : ℕ) {k : ℕ} (hk : 0 < k) : (m + n) / k ≤ m / k + n ⌈/⌉ k := by
  rw [← Nat.add_mul_div_left _ _ hk]
  exact Nat.div_le_div_right (Nat.add_le_add_left (le_smul_ceilDiv hk) m)

/-- Twice the tolerance of the solvers as an amount of the asset `ask`, rounded up. -/
def toleratedLoss (scale : Decimal) : Side → ℕ
  | .base => 2 * Limits.tolerance.raw
  | .quote => (2 * Limits.tolerance.raw * Decimal.scale) ⌈/⌉ scale.raw

section Value

variable {scale : Decimal} {side : Side}

/-- More of an asset is worth no less. -/
theorem le_of_toValue {a b x y : Decimal} (hx : toValue scale side a = .ok x)
    (hy : toValue scale side b = .ok y) (hab : a ≤ b) : x.raw ≤ y.raw := by
  cases side with
  | base =>
    cases hx
    cases hy
    exact hab
  | quote =>
    rw [Decimal.mul_eq_ok.mp hx, Decimal.mul_eq_ok.mp hy]
    exact Nat.div_le_div_right (Nat.mul_le_mul_right _ hab)

/-- Values that are apart by no more than twice the tolerance convert to amounts that are apart by
no more than that. -/
theorem le_add_toleratedLoss {a b x y : Decimal} (hx : ofValue scale side a = .ok x)
    (hy : ofValue scale side b = .ok y) (hab : a.raw ≤ b.raw + 2 * Limits.tolerance.raw) :
    x.raw ≤ y.raw + toleratedLoss scale side := by
  cases side with
  | base =>
    cases hx
    cases hy
    exact hab
  | quote =>
    obtain ⟨hne, hxRaw⟩ := Decimal.div_eq_ok.mp hx
    obtain ⟨-, hyRaw⟩ := Decimal.div_eq_ok.mp hy
    rw [hxRaw, hyRaw]
    calc a.raw * Decimal.scale / scale.raw
        ≤ (b.raw * Decimal.scale + 2 * Limits.tolerance.raw * Decimal.scale) / scale.raw := by
          rw [← Nat.add_mul]
          exact Nat.div_le_div_right (Nat.mul_le_mul_right _ hab)
      _ ≤ b.raw * Decimal.scale / scale.raw + toleratedLoss scale .quote :=
          add_div_le_ceilDiv _ _ (Nat.pos_of_ne_zero hne)

end Value

section Fee

variable {unit gross gross' rate rate' output output' loss : ℕ}

/-- A fee that leaves something is a part of the amount. -/
theorem rate_le_of_output_pos (hunit : 0 < unit) (houtput : 0 < output)
    (hsplit : output + gross * rate / unit = gross) : rate ≤ unit := by
  by_contra hover
  rw [not_le] at hover
  have hall : gross ≤ gross * rate / unit := by
    rw [Nat.le_div_iff_mul_le hunit]
    exact Nat.mul_le_mul_left _ hover.le
  omega

/-- What is left of an amount after a fee is at most what is left of another one, plus what the
first is larger by, plus what the fee rate of the other has risen. -/
theorem output_le_add (hunit : 0 < unit) (hsplit : output + gross * rate / unit = gross)
    (hsplit' : output' + gross' * rate' / unit = gross') (hrate : rate' ≤ unit)
    (hgross : gross ≤ gross' + loss) :
    output ≤ output' + loss + (gross * (rate' - rate)) ⌈/⌉ unit := by
  have hrise : gross * rate' / unit ≤
      gross * rate / unit + (gross * (rate' - rate)) ⌈/⌉ unit := by
    refine le_trans (Nat.div_le_div_right ?_) (add_div_le_ceilDiv _ _ hunit)
    rw [← Nat.mul_add]
    exact Nat.mul_le_mul_left _ (by omega)
  have hkept : gross + gross' * rate' / unit ≤ gross' + gross * rate' / unit + loss := by
    rcases le_total gross gross' with hle | hle
    · obtain ⟨more, rfl⟩ := Nat.exists_eq_add_of_le hle
      have hmore : (gross + more) * rate' / unit ≤ gross * rate' / unit + more := by
        rw [← Nat.add_mul_div_left _ _ hunit, Nat.add_mul, Nat.mul_comm unit]
        exact Nat.div_le_div_right (Nat.add_le_add_left (Nat.mul_le_mul_left _ hrate) _)
      omega
    · have hless : gross' * rate' / unit ≤ gross * rate' / unit :=
        Nat.div_le_div_right (Nat.mul_le_mul_right _ hle)
      omega
  omega

end Fee

/-! ### Two offers -/

/-- A quote divides what the curve gives out, converted at the price scale, into the output, which
is not zero, and the fee at its rate. -/
theorem exists_of_quoteSwap {state : PoolState} {params : PoolParams} {pools : Pair Decimal}
    {offer makerShare : Decimal} {ask : Side} {now : ℤ} {q : SwapQuote}
    (h : quoteSwap state params pools offer ask now makerShare = .ok q) :
    ∃ value left gross,
      curveOutput (state.promotion.effective now) state.price.scale pools offer ask =
        .ok (value, left) ∧
      ofValue state.price.scale ask value = .ok gross ∧
      q.output.raw + gross.raw * q.rate.raw / Decimal.scale = gross.raw ∧
      q.fee.raw = gross.raw * q.rate.raw / Decimal.scale ∧ 0 < q.output.raw := by
  obtain ⟨trace⟩ := nonempty_quoteTrace h
  have hfee := Decimal.mul_eq_ok.mp trace.hfee
  exact ⟨trace.value, trace.left, trace.gross, trace.hcurve, trace.hgross,
    hfee ▸ trace.output_add_fee, hfee, trace.hpos⟩

/-- The invariant that swaps of a pool keep. -/
def curveInvariant (shape : AmpGamma) (scale : Decimal) (pools : Pair Decimal) :
    Except Fault Decimal := do
  shape.invariant (← scaledBalances scale pools).toList

/-- A balance is solved for a positive invariant and positive balances only. -/
theorem AmpGamma.pos_of_balance {a : AmpGamma} {x : Pair Decimal} {d y : Decimal} {side : Side}
    (h : a.balance x.toList d side = .ok y) : 0 < d.raw ∧ ∀ s, 0 < (x.get s).raw := by
  simp only [balance, positiveBalances, Pair.ofBalances, Pair.ofList?_toList, refuse_eq_ok,
    bind_eq_ok, pure_eq_ok, Pair.any, Bool.or_eq_true, Decimal.isZero_eq_true, not_or] at h
  obtain ⟨_, ⟨_, hx, ⟨hbase, hquote⟩, rfl⟩, hd, -⟩ := h
  obtain rfl := Except.ok.inj hx
  refine ⟨Nat.pos_of_ne_zero hd, fun s ↦ ?_⟩
  cases s with
  | base => exact Nat.pos_of_ne_zero hbase
  | quote => exact Nat.pos_of_ne_zero hquote

section Curve

variable {shape : AmpGamma} {scale offer value : Decimal} {pools left : Pair Decimal} {ask : Side}

/-- The point of a swap: a balance that the solver gives for the invariant of the pool, beside what
the offer has made of the other balance. -/
theorem exists_point_of_curveOutput
    (h : curveOutput shape scale pools offer ask = .ok (value, left)) :
    ∃ x d offered, scaledBalances scale pools = .ok x ∧ curveInvariant shape scale pools = .ok d ∧
      toValue scale ask.other offer = .ok offered ∧ 0 < d.toRat ∧
      0 < (left.get ask.other).toRat ∧
      (shape.InRange → shape.WellScaled d.toRat (left.get ask.other).toRat (left.get ask).toRat →
        shape.NearRoot d.toRat (left.get ask.other).toRat (left.get ask).toRat) ∧
      (left.get ask.other).raw = (x.get ask.other).raw + offered.raw ∧
      value.raw + (left.get ask).raw = (x.get ask).raw := by
  obtain ⟨x, d, offered, hx, hd, hoffered, hbalance, hother, hask⟩ := of_curveOutput h
  have hscale := Decimal.cast_scale_pos
  obtain ⟨hdPos, hxPos⟩ := AmpGamma.pos_of_balance hbalance
  have hotherPos := hxPos ask.other
  rw [Pair.get_set_self] at hotherPos
  refine ⟨x, d, offered, hx, ?_, hoffered, div_pos (by exact_mod_cast hdPos) hscale,
    div_pos (by exact_mod_cast hotherPos) hscale, fun hrange hscaled ↦ ?_, hother, hask⟩
  · simp only [curveInvariant, bind_eq_ok]
    exact ⟨x, hx, hd⟩
  · have hnear := AmpGamma.balance_nearRoot hrange hbalance
    rw [Pair.get_set_self] at hnear
    exact hnear hscaled

/-- What the curve gives out for a larger offer is no less, but for twice the tolerance, where both
balances are near the root. -/
theorem value_le_of_offer_le {d more value' : Decimal} {left' : Pair Decimal}
    (hrange : shape.InRange) (hle : offer ≤ more)
    (h : curveOutput shape scale pools offer ask = .ok (value, left))
    (h' : curveOutput shape scale pools more ask = .ok (value', left'))
    (hd : curveInvariant shape scale pools = .ok d)
    (hnear : shape.NearRoot d.toRat (left.get ask.other).toRat (left.get ask).toRat)
    (hnear' : shape.NearRoot d.toRat (left'.get ask.other).toRat (left'.get ask).toRat) :
    value.raw ≤ value'.raw + 2 * Limits.tolerance.raw := by
  obtain ⟨⟨hamp, -⟩, hγ, -⟩ := hrange.toRat_bounds
  obtain ⟨x, e, offered, hx, he, hoffered, hdPos, hotherPos, -, hother, hask⟩ :=
    exists_point_of_curveOutput h
  obtain ⟨x', _, offered', hx', -, hoffered', -, -, -, hother', hask'⟩ :=
    exists_point_of_curveOutput h'
  obtain rfl : x = x' := Except.ok.inj (hx.symm.trans hx')
  obtain rfl : d = e := Except.ok.inj (hd.symm.trans he)
  have hmore : (left.get ask.other).toRat ≤ (left'.get ask.other).toRat := by
    have hoffers := le_of_toValue hoffered hoffered' hle
    exact Decimal.toRat_le_toRat.mpr (by omega)
  have hbalances := hnear.le_add (by linarith) (lt_of_lt_of_le (by norm_num) hγ) hdPos hotherPos
    hmore (Decimal.toRat_nonneg _) hnear'
  have hraw : (left'.get ask).raw ≤ (left.get ask).raw + 2 * Limits.tolerance.raw := by
    have hscale := Decimal.cast_scale_pos
    unfold Decimal.toRat at hbalances
    rw [← mul_div_assoc, ← add_div, div_le_div_iff_of_pos_right hscale] at hbalances
    exact_mod_cast hbalances
  omega

end Curve

namespace Ledger

/-- Whether a larger offer buys more, in every pool that can be reached. Both swaps of such a pool
have a point on the curve of its invariant, which is near the root where it is well scaled. Where
both points are near the root, the larger offer makes the curve give out no less, but for twice the
tolerance in units of equal value, and so before fees it buys no less, but for that much of the
asked asset. After fees it buys no less, but for that and what the fee rate has risen. -/
theorem output_le_of_offer_le {sources : List AssetSource} {initial : InitialParams} {created : ℤ}
    {token : String} {pool : Pool} (hcreate : Pool.create sources initial created token = .ok pool)
    (calls : List Call) (pools : Pair Decimal) (ask : Side) (now : ℤ) (makerShare : Decimal)
    {small large : Decimal} (hle : small ≤ large) {less more : SwapQuote}
    (hless : quoteSwap ((ofPool pool).run calls).pool.state ((ofPool pool).run calls).pool.params
      pools small ask now makerShare = .ok less)
    (hmore : quoteSwap ((ofPool pool).run calls).pool.state ((ofPool pool).run calls).pool.params
      pools large ask now makerShare = .ok more) :
    let state := ((ofPool pool).run calls).pool.state
    let shape := state.promotion.effective now
    let scale := state.price.scale
    ∃ d value left value' left', curveInvariant shape scale pools = .ok d ∧
      curveOutput shape scale pools small ask = .ok (value, left) ∧
      curveOutput shape scale pools large ask = .ok (value', left') ∧
      (∀ point ∈ [left, left'],
        shape.WellScaled d.toRat (point.get ask.other).toRat (point.get ask).toRat →
        shape.NearRoot d.toRat (point.get ask.other).toRat (point.get ask).toRat) ∧
      (shape.NearRoot d.toRat (left.get ask.other).toRat (left.get ask).toRat →
        shape.NearRoot d.toRat (left'.get ask.other).toRat (left'.get ask).toRat →
        value.raw ≤ value'.raw + 2 * Limits.tolerance.raw ∧
        less.output.raw + less.fee.raw ≤
          more.output.raw + more.fee.raw + toleratedLoss scale ask ∧
        less.output.raw ≤ more.output.raw + toleratedLoss scale ask +
          ((less.output.raw + less.fee.raw) * (more.rate.raw - less.rate.raw)) ⌈/⌉
            Decimal.scale) := by
  intro state shape scale
  have hrange : shape.InRange := Promotion.inRange_effective
    (wellFormed_run (wellFormed_ofPool hcreate) calls).pool.promotion now
  obtain ⟨value, left, gross, hcurve, hgross, hsplit, hfee, -⟩ := exists_of_quoteSwap hless
  obtain ⟨value', left', gross', hcurve', hgross', hsplit', hfee', hpos'⟩ :=
    exists_of_quoteSwap hmore
  obtain ⟨_, d, _, -, hd, -, -, -, hnear, -, -⟩ := exists_point_of_curveOutput hcurve
  obtain ⟨_, d', _, -, hd', -, -, -, hnear', -, -⟩ := exists_point_of_curveOutput hcurve'
  obtain rfl : d = d' := Except.ok.inj (hd.symm.trans hd')
  refine ⟨d, value, left, value', left', hd, hcurve, hcurve', ?_, fun hroot hroot' ↦ ?_⟩
  · intro point hpoint hscaled
    rcases List.mem_pair.mp hpoint with rfl | rfl
    · exact hnear hrange hscaled
    · exact hnear' hrange hscaled
  · have hvalue := value_le_of_offer_le hrange hle hcurve hcurve' hd hroot hroot'
    have hloss : gross.raw ≤ gross'.raw + toleratedLoss scale ask :=
      le_add_toleratedLoss hgross hgross' hvalue
    have hrate := rate_le_of_output_pos Decimal.scale_pos hpos' hsplit'
    have houtput := output_le_add Decimal.scale_pos hsplit hsplit' hrate hloss
    refine ⟨hvalue, by omega, ?_⟩
    rw [hfee, hsplit]
    exact houtput

/-- Balances of 2000 and 2400 tokens. -/
def fiveToSix : Pair Decimal :=
  ⟨⟨2000 * Decimal.scale, by decide⟩, ⟨2400 * Decimal.scale, by decide⟩⟩

/-- The usual pool sells for offers of 100 and of 110 tokens, and both swaps are well scaled. -/
theorem output_le_of_offer_le_usual :
    ∃ less more,
      quoteSwap Pool.usual.state Pool.usual.params fiveToSix ⟨100 * Decimal.scale, by decide⟩
        .quote 0 .zero = .ok less ∧
      quoteSwap Pool.usual.state Pool.usual.params fiveToSix ⟨110 * Decimal.scale, by decide⟩
        .quote 0 .zero = .ok more ∧
      less.output.raw + less.fee.raw ≤
        more.output.raw + more.fee.raw + 2 * Limits.tolerance.raw ∧
      less.output.raw ≤ more.output.raw + 2 * Limits.tolerance.raw +
        ((less.output.raw + less.fee.raw) * (more.rate.raw - less.rate.raw)) ⌈/⌉
          Decimal.scale := by
  obtain ⟨less, hless, -⟩ := exists_of_any
    (quoteSwap Pool.usual.state Pool.usual.params fiveToSix ⟨100 * Decimal.scale, by decide⟩
      .quote 0 .zero) (fun _ ↦ true) (by decide +kernel)
  obtain ⟨more, hmore, -⟩ := exists_of_any
    (quoteSwap Pool.usual.state Pool.usual.params fiveToSix ⟨110 * Decimal.scale, by decide⟩
      .quote 0 .zero) (fun _ ↦ true) (by decide +kernel)
  let shape := Pool.usual.state.promotion.effective 0
  obtain ⟨scaled, hrun, hscaled⟩ := exists_of_any (do
    let d ← curveInvariant shape .one fiveToSix
    let small ← curveOutput shape .one fiveToSix ⟨100 * Decimal.scale, by decide⟩ .quote
    let large ← curveOutput shape .one fiveToSix ⟨110 * Decimal.scale, by decide⟩ .quote
    return decide (∀ point ∈ [small.2, large.2],
      shape.WellScaled d.toRat point.base.toRat point.quote.toRat)) (fun b ↦ b) (by decide +kernel)
  simp only [bind_eq_ok, pure_eq_ok, Prod.exists] at hrun
  obtain ⟨d, hd, value, left, hcurve, value', left', hcurve', rfl⟩ := hrun
  have hscaled := of_decide_eq_true hscaled
  obtain ⟨_, _, _, _, _, he, hsmall, hlarge, hnear, hgains⟩ := output_le_of_offer_le
    Pool.create_usual [] fiveToSix .quote 0 .zero (by decide) hless hmore
  obtain rfl := Except.ok.inj (hd.symm.trans he)
  obtain ⟨rfl, rfl⟩ := Prod.mk.inj (Except.ok.inj (hcurve.symm.trans hsmall))
  obtain ⟨rfl, rfl⟩ := Prod.mk.inj (Except.ok.inj (hcurve'.symm.trans hlarge))
  obtain ⟨-, hgross, houtput⟩ := hgains
    (hnear left (by simp) (hscaled left (by simp)))
    (hnear left' (by simp) (hscaled left' (by simp)))
  exact ⟨less, more, hless, hmore, hgross, houtput⟩

/-- The usual parameters with the steepest fee that governance allows: from 0.1 % to 50 % as soon as
the balances are a little uneven. -/
def steepFee : InitialParams :=
  { Pool.usualParams with
    midFee := Limits.minFee
    outFee := Limits.maxFee
    feeGamma := Limits.minFeeGamma }

/-- The usual parameters, with a quote asset that is worth `10⁻¹²` of the base asset. -/
def cheapQuote : InitialParams :=
  { Pool.usualParams with priceScale := ⟨1_000_000, by decide⟩ }

/-- What a new pool quotes for a smaller and a larger offer of its base asset. -/
def quotesOfNew (initial : InitialParams) (pools : Pair Decimal) (small large : Decimal) :
    Except Fault (SwapQuote × SwapQuote) := do
  let pool ← Pool.create [.known ⟨"uusd", 6⟩, .known ⟨"uluna", 6⟩] initial 0 "shares"
  let less ← quoteSwap pool.state pool.params pools small .quote 0 .zero
  let more ← quoteSwap pool.state pool.params pools large .quote 0 .zero
  return (less, more)

/-- A larger offer can buy less by more than twice the tolerance. With a steep fee the smaller offer
makes the balances even, and the larger one makes them uneven again; and where the asked asset is
cheap, twice the tolerance of value is a large amount of it. In the second pool the curve itself
gives out less for an offer that is larger by one unit of the last place: the solver takes one step
less for it. -/
theorem output_falls_with_offer :
    (∃ less more, quotesOfNew steepFee fiveToSix ⟨193_200_000_000_000_000_000, by decide⟩
        ⟨194_200_000_000_000_000_000, by decide⟩ = .ok (less, more) ∧
      more.output.raw + 2 * Limits.tolerance.raw < less.output.raw) ∧
    (∃ less more, quotesOfNew cheapQuote
        ⟨⟨100 * Decimal.scale, by decide⟩, ⟨10 ^ 15 * Decimal.scale, by decide⟩⟩
        ⟨212_491_471_210_929_392_325, by decide⟩ ⟨212_491_471_210_929_392_326, by decide⟩ =
        .ok (less, more) ∧
      more.output.raw + more.fee.raw + 2 * Limits.tolerance.raw <
        less.output.raw + less.fee.raw ∧
      more.output.raw + 2 * Limits.tolerance.raw < less.output.raw) := by
  constructor
  · obtain ⟨⟨less, more⟩, hquotes, hfalls⟩ := exists_of_any
      (quotesOfNew steepFee fiveToSix ⟨193_200_000_000_000_000_000, by decide⟩
        ⟨194_200_000_000_000_000_000, by decide⟩)
      (fun q ↦ q.2.output.raw + 2 * Limits.tolerance.raw < q.1.output.raw) (by decide +kernel)
    exact ⟨less, more, hquotes, of_decide_eq_true hfalls⟩
  · obtain ⟨⟨less, more⟩, hquotes, hfalls⟩ := exists_of_any
      (quotesOfNew cheapQuote
        ⟨⟨100 * Decimal.scale, by decide⟩, ⟨10 ^ 15 * Decimal.scale, by decide⟩⟩
        ⟨212_491_471_210_929_392_325, by decide⟩ ⟨212_491_471_210_929_392_326, by decide⟩)
      (fun q ↦ q.2.output.raw + q.2.fee.raw + 2 * Limits.tolerance.raw <
          q.1.output.raw + q.1.fee.raw ∧
        q.2.output.raw + 2 * Limits.tolerance.raw < q.1.output.raw) (by decide +kernel)
    exact ⟨less, more, hquotes, of_decide_eq_true hfalls⟩

end Ledger

end ConcentratedPool
