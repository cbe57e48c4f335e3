import ConcentratedPool.PriceState
import ConcentratedPool.Proofs.VirtualCapital

/-!
# What a price update does

`PriceState.update` runs three stages, each of which may refuse. `UpdateEnds` lists the four ways
in which it can end, and everything else about an update is read off them: the oracle stage changes
the oracle, the clock and the last price only (`exists_eq_of_observe`), the credit stage measures
the virtual price at the scale in force and never lowers the profit (`exists_eq_of_credit`), and the
repeg stage moves the scale only to a positive one whose virtual price clears the profit gate
(`exists_eq_of_repeg`).

`virtualPriceAt` is the virtual price of balances at a price scale, the quantity that both sides of
the gate are stated in. `virtualPrice_le_of_gate` is the arithmetic of the gate: a candidate profit
that was rounded down three times still bounds the exact ratio of the two virtual prices.
-/

set_option autoImplicit false
set_option relaxedAutoImplicit false

namespace ConcentratedPool

/-- The virtual price of the balances `xs`, in units of equal value, at a price scale. -/
def virtualPriceAt (shape : AmpGamma) (scale supply : Decimal) (xs : List Decimal) :
    Except Fault Decimal := do
  (← virtualCapital (← shape.invariant xs) scale) / supply

namespace PriceState

variable {s t : PriceState} {params : PoolParams} {shape : AmpGamma} {now : ℤ}
variable {supply last : Decimal} {xs : List Decimal}

/-! ### The three stages -/

/-- The first stage moves the oracle with its clock and takes note of the last price. -/
theorem exists_eq_of_observe {halfTime : ℤ} (h : s.observe halfTime now last = .ok t) :
    ∃ oracle updated, t = { s with oracle, updated, last } := by
  simp only [observe, moveOracle, bind_eq_ok, pure_eq_ok] at h
  obtain ⟨moved, hmoved, rfl⟩ := h
  rw [branch_eq_ok] at hmoved
  rcases hmoved with ⟨-, hsame⟩ | ⟨-, hblend⟩
  · obtain rfl := pure_eq_ok.mp hsame
    exact ⟨s.oracle, s.updated, rfl⟩
  · simp only [bind_eq_ok, pure_eq_ok] at hblend
    obtain ⟨_, _, _, _, _, _, _, _, oracle, _, rfl⟩ := hblend
    exact ⟨oracle, now, rfl⟩

/-- Profit is never credited downward. -/
theorem profit_le_of_grownProfit {virtualPrice profit : Decimal}
    (h : s.grownProfit virtualPrice = .ok profit) : s.profit.raw ≤ profit.raw := by
  unfold grownProfit at h
  rw [branch_eq_ok] at h
  rcases h with ⟨-, hsame⟩ | ⟨-, hgrown⟩
  · exact le_of_eq (congrArg Decimal.raw (pure_eq_ok.mp hsame))
  · simp only [bind_eq_ok, pure_eq_ok] at hgrown
    obtain ⟨_, _, grown, _, rfl⟩ := hgrown
    exact Decimal.raw_le_max s.profit grown

/-- The second stage stores the virtual price at the scale in force, and a profit that is not
smaller. -/
theorem exists_eq_of_credit (h : s.credit shape supply xs = .ok t) :
    ∃ profit capital virtualPrice, t = { s with profit, capital, virtualPrice } ∧
      s.profit.raw ≤ profit.raw ∧ virtualPriceAt shape s.scale supply xs = .ok virtualPrice := by
  simp only [credit, bind_eq_ok, pure_eq_ok] at h
  obtain ⟨d, hd, capital, hcapital, virtualPrice, hprice, profit, hprofit, rfl⟩ := h
  refine ⟨profit, capital, virtualPrice, rfl, profit_le_of_grownProfit hprofit, ?_⟩
  simp only [virtualPriceAt, bind_eq_ok]
  exact ⟨d, hd, capital, hcapital, hprice⟩

/-- The profit gate. The candidate profit is a product rounded down, divided by the old virtual
price and rounded down again; where it reaches the required profit, the exact ratio of the virtual
prices does as well. -/
theorem virtualPrice_le_of_gate {profit old new product candidate required : Decimal}
    (hproduct : (profit * new : Except Fault Decimal) = .ok product)
    (hcandidate : (product / old : Except Fault Decimal) = .ok candidate)
    (hgate : ¬ candidate < required) : old.raw * required.raw ≤ new.raw * profit.raw := by
  rw [Decimal.lt_def, not_lt] at hgate
  calc old.raw * required.raw ≤ candidate.raw * old.raw := by
        rw [mul_comm]; exact Nat.mul_le_mul_right _ hgate
    _ ≤ product.raw * Decimal.scale := Decimal.div_raw_le hcandidate
    _ ≤ profit.raw * new.raw := Decimal.mul_raw_le hproduct
    _ = new.raw * profit.raw := mul_comm _ _

/-- The third stage, where it moves the scale: the deviation from the oracle is no smaller than the
step, the new scale is the moved one and positive, and the virtual price of the balances there,
whose quote side is converted to the new scale, clears the profit gate. -/
theorem exists_eq_of_repeg {pair : Pair Decimal}
    (h : s.repeg? params shape supply pair = .ok (some t)) :
    ∃ deviation delta scale capital virtualPrice, t = { s with scale, capital, virtualPrice } ∧
      s.deviation = .ok deviation ∧ scaleDelta params deviation = .ok delta ∧ delta ≤ deviation ∧
      s.movedScale deviation delta = .ok scale ∧ 0 < scale.raw ∧
      s.virtualPrice.raw *
          (s.profit.raw * (Decimal.scale + params.repegThreshold.raw) / Decimal.scale) ≤
        virtualPrice.raw * s.profit.raw := by
  simp only [repeg?, bind_eq_ok] at h
  obtain ⟨deviation, hdeviation, delta, hdelta, h⟩ := h
  rcases branch_eq_ok.mp h with ⟨-, hnone⟩ | ⟨hstep, h⟩
  · cases hnone
  simp only [bind_eq_ok] at h
  obtain ⟨factor, hfactor, required, hrequired, h⟩ := h
  rcases branch_eq_ok.mp h with ⟨-, hnone⟩ | ⟨-, h⟩
  · cases hnone
  simp only [bind_eq_ok, tryScale] at h
  obtain ⟨scale, hscale, _, _, quote, _, d, _, capital, hcapital, virtualPrice, _, product,
    hproduct, candidate, hcandidate, h⟩ := h
  rcases branch_eq_ok.mp h with ⟨-, hnone⟩ | ⟨hgate, hsome⟩
  · cases hnone
  cases hsome
  have hbound := virtualPrice_le_of_gate hproduct hcandidate hgate
  rw [Decimal.mul_eq_ok.mp hrequired, Decimal.add_eq_ok.mp hfactor] at hbound
  exact ⟨deviation, delta, scale, capital, virtualPrice, rfl, hdeviation, hdelta,
    Nat.le_of_not_lt hstep, hscale, (raw_of_virtualCapital hcapital).1, hbound⟩

/-! ### The whole update -/

/-- The ways in which a price update can end, by the last stage that it completed. -/
inductive UpdateEnds (s : PriceState) (params : PoolParams) (shape : AmpGamma) (now : ℤ)
    (supply : Decimal) (xs : List Decimal) (last : Decimal) : PriceState → Except Fault Bool → Prop
  | refused (fault : Fault) : UpdateEnds s params shape now supply xs last s (.error fault)
  | observed {t : PriceState} (fault : Fault)
      (hobserve : s.observe params.halfTime now last = .ok t) :
      UpdateEnds s params shape now supply xs last t (.error fault)
  | credited {observed t : PriceState} {outcome : Except Fault Bool}
      (hobserve : s.observe params.halfTime now last = .ok observed)
      (hcredit : observed.credit shape supply xs = .ok t) (houtcome : outcome ≠ .ok true) :
      UpdateEnds s params shape now supply xs last t outcome
  | moved {observed credited t : PriceState} {pair : Pair Decimal}
      (hobserve : s.observe params.halfTime now last = .ok observed)
      (hcredit : observed.credit shape supply xs = .ok credited)
      (hpair : Pair.ofBalances xs = .ok pair)
      (hrepeg : credited.repeg? params shape supply pair = .ok (some t)) :
      UpdateEnds s params shape now supply xs last t (.ok true)

/-- Every update ends in one of these ways. -/
theorem updateEnds_of_update {outcome : Except Fault Bool}
    (h : s.update params shape now supply xs last = (t, outcome)) :
    UpdateEnds s params shape now supply xs last t outcome := by
  unfold update at h
  split_ifs at h with hsupply
  · cases h
    exact .refused _
  split at h
  · cases h
    exact .refused _
  next observed hobserve =>
  split at h
  · cases h
    exact .observed _ hobserve
  · cases h
    exact .observed _ hobserve
  next credited pair hcredit hpair =>
  split at h
  · cases h
    exact .credited hobserve hcredit (by simp)
  · cases h
    exact .credited hobserve hcredit (by simp)
  · next moved hrepeg =>
    cases h
    exact .moved hobserve hcredit hpair hrepeg

/-- No exit of an update, one with a refusal included, leaves a smaller profit. -/
theorem profit_le_of_update {outcome : Except Fault Bool}
    (h : s.update params shape now supply xs last = (t, outcome)) :
    s.profit.raw ≤ t.profit.raw := by
  cases updateEnds_of_update h with
  | refused => exact le_rfl
  | observed _ hobserve =>
    obtain ⟨_, _, rfl⟩ := exists_eq_of_observe hobserve
    exact le_rfl
  | credited hobserve hcredit _ =>
    obtain ⟨_, _, rfl⟩ := exists_eq_of_observe hobserve
    obtain ⟨_, _, _, rfl, hprofit, _⟩ := exists_eq_of_credit hcredit
    exact hprofit
  | moved hobserve hcredit _ hrepeg =>
    obtain ⟨_, _, rfl⟩ := exists_eq_of_observe hobserve
    obtain ⟨_, _, _, rfl, hprofit, _⟩ := exists_eq_of_credit hcredit
    obtain ⟨_, _, _, _, _, rfl, _⟩ := exists_eq_of_repeg hrepeg
    exact hprofit

/-- An update leaves the price scale alone or moves it to a positive one. -/
theorem scale_eq_or_pos_of_update {outcome : Except Fault Bool}
    (h : s.update params shape now supply xs last = (t, outcome)) :
    t.scale = s.scale ∨ 0 < t.scale.raw := by
  cases updateEnds_of_update h with
  | refused => exact .inl rfl
  | observed _ hobserve =>
    obtain ⟨_, _, rfl⟩ := exists_eq_of_observe hobserve
    exact .inl rfl
  | credited hobserve hcredit _ =>
    obtain ⟨_, _, rfl⟩ := exists_eq_of_observe hobserve
    obtain ⟨_, _, _, rfl, _⟩ := exists_eq_of_credit hcredit
    exact .inl rfl
  | moved _ _ _ hrepeg =>
    obtain ⟨_, _, _, _, _, rfl, _, _, _, _, hpos, _⟩ := exists_eq_of_repeg hrepeg
    exact .inr hpos

/-- An update that moves the scale measured a virtual price at the old scale, and the one that it
stores at the new scale clears the profit gate over it. -/
theorem exists_virtualPrice_of_moved
    (h : s.update params shape now supply xs last = (t, .ok true)) :
    ∃ measured, virtualPriceAt shape s.scale supply xs = .ok measured ∧
      measured.raw * (t.profit.raw * (Decimal.scale + params.repegThreshold.raw) / Decimal.scale) ≤
        t.virtualPrice.raw * t.profit.raw := by
  cases updateEnds_of_update h with
  | credited _ _ houtcome => exact absurd rfl houtcome
  | moved hobserve hcredit _ hrepeg =>
    obtain ⟨_, _, rfl⟩ := exists_eq_of_observe hobserve
    obtain ⟨_, _, measured, rfl, _, hmeasured⟩ := exists_eq_of_credit hcredit
    obtain ⟨_, _, _, _, _, rfl, _, _, _, _, _, hgate⟩ := exists_eq_of_repeg hrepeg
    exact ⟨measured, hmeasured, hgate⟩

/-- A profit, grown by a threshold and rounded down, is not smaller than itself. -/
theorem le_required (profit threshold : ℕ) :
    profit ≤ profit * (Decimal.scale + threshold) / Decimal.scale := by
  rw [Nat.le_div_iff_mul_le Decimal.scale_pos]
  exact Nat.mul_le_mul_left _ (Nat.le_add_right _ _)

/-- With a positive profit, clearing the gate means that the virtual price has not fallen. -/
theorem virtualPrice_le_of_cleared {old new profit threshold : ℕ} (hprofit : 0 < profit)
    (hgate : old * (profit * (Decimal.scale + threshold) / Decimal.scale) ≤ new * profit) :
    old ≤ new :=
  Nat.le_of_mul_le_mul_right
    ((Nat.mul_le_mul_left old (le_required profit threshold)).trans hgate) hprofit

end PriceState

/-- A price update of a pool is one of its price state, at the curve parameters in force. -/
theorem PoolState.update_of_updatePrice {s t : PoolState} {params : PoolParams} {now : ℤ}
    {supply last : Decimal} {xs : List Decimal} {outcome : Except Fault Bool}
    (h : s.updatePrice params now supply xs last = (t, outcome)) :
    s.price.update params (s.promotion.effective now) now supply xs last = (t.price, outcome) := by
  unfold updatePrice at h
  rw [Prod.mk.injEq] at h
  obtain ⟨rfl, houtcome⟩ := h
  exact Prod.ext rfl houtcome

end ConcentratedPool
