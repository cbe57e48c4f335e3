import ConcentratedPool.Proofs.PoolInvariant
import ConcentratedPool.Proofs.PriceUpdate

/-!
# What a price update leaves behind

A price update can end with a move of the scale, without one, or with a refusal after any of its
stages. `updatePrice_exits` says what each of these exits leaves behind. On all of them the curve
parameters stay, the clock of the oracle does not run backward, and the scale stays unless a move is
reported. On the two exits without a refusal the stored fields belong together
(`PriceState.Consistent`): the oracle is the one that the oracle stage alone gives, and capital and
virtual price are those of the balances at the scale that is stored with them.

Each stage contributes what it wrote (`exists_moved_of_observe`, `capitalAt_of_credit`,
`capitalAt_of_repeg`); the frames of the stages, which say what they did not write, are those of the
module on price updates.
-/

set_option autoImplicit false
set_option relaxedAutoImplicit false

namespace ConcentratedPool

/-- The virtual capital of the balances `xs`, in units of equal value, at a price scale. -/
def capitalAt (shape : AmpGamma) (scale : Decimal) (xs : List Decimal) : Except Fault Decimal := do
  virtualCapital (← shape.invariant xs) scale

/-- Balances in units of equal value at the price scale `old` in those at the scale `new`. -/
def rescaled (old new : Decimal) (xs : List Decimal) : Except Fault (List Decimal) := do
  let x ← Pair.ofBalances xs
  return [x.base, ← (← x.quote * new) / old]

namespace PriceState

variable {s t : PriceState} {params : PoolParams} {shape : AmpGamma} {now : ℤ}
variable {supply last : Decimal} {xs : List Decimal}

/-! ### What the stages write -/

/-- A move of the oracle changes the oracle and its clock, which does not run backward. -/
theorem exists_eq_of_moveOracle {halfTime : ℤ} (h : s.moveOracle halfTime now = .ok t) :
    ∃ oracle updated, t = { s with oracle, updated } ∧ s.updated ≤ updated := by
  unfold moveOracle at h
  rcases branch_eq_ok.mp h with ⟨-, hsame⟩ | ⟨hlate, hblend⟩
  · obtain rfl := pure_eq_ok.mp hsame
    exact ⟨s.oracle, s.updated, rfl, le_rfl⟩
  · simp only [bind_eq_ok, pure_eq_ok] at hblend
    obtain ⟨_, _, _, _, _, _, _, _, oracle, _, rfl⟩ := hblend
    exact ⟨oracle, now, rfl, (not_le.mp hlate).le⟩

/-- The first stage is a move of the oracle with the last price put in. -/
theorem exists_moved_of_observe {halfTime : ℤ} (h : s.observe halfTime now last = .ok t) :
    ∃ moved, s.moveOracle halfTime now = .ok moved ∧ t = { moved with last } := by
  simp only [observe, bind_eq_ok, pure_eq_ok] at h
  obtain ⟨moved, hmoved, rfl⟩ := h
  exact ⟨moved, hmoved, rfl⟩

/-- The second stage stores the capital of the balances at the scale in force, and what a share of
it is. -/
theorem capitalAt_of_credit (h : s.credit shape supply xs = .ok t) :
    capitalAt shape s.scale xs = .ok t.capital ∧
      (t.capital / supply : Except Fault Decimal) = .ok t.virtualPrice := by
  simp only [credit, bind_eq_ok, pure_eq_ok] at h
  obtain ⟨d, hd, capital, hcapital, virtualPrice, hprice, profit, -, rfl⟩ := h
  refine ⟨?_, hprice⟩
  simp only [capitalAt, bind_eq_ok]
  exact ⟨d, hd, hcapital⟩

/-- The third stage, where it moves the scale, stores the capital of the rescaled balances at the
new scale, and what a share of it is. -/
theorem capitalAt_of_repeg {pair : Pair Decimal} (hpair : Pair.ofBalances xs = .ok pair)
    (h : s.repeg? params shape supply pair = .ok (some t)) :
    (rescaled s.scale t.scale xs >>= capitalAt shape t.scale) = .ok t.capital ∧
      (t.capital / supply : Except Fault Decimal) = .ok t.virtualPrice := by
  simp only [repeg?, bind_eq_ok] at h
  obtain ⟨deviation, -, delta, -, h⟩ := h
  rcases branch_eq_ok.mp h with ⟨-, hnone⟩ | ⟨-, h⟩
  · cases hnone
  simp only [bind_eq_ok] at h
  obtain ⟨factor, -, required, -, h⟩ := h
  rcases branch_eq_ok.mp h with ⟨-, hnone⟩ | ⟨-, h⟩
  · cases hnone
  simp only [bind_eq_ok, tryScale] at h
  obtain ⟨scale, -, product, hproduct, quote, hquote, d, hd, capital, hcapital, virtualPrice,
    hprice, _, -, _, -, h⟩ := h
  rcases branch_eq_ok.mp h with ⟨-, hnone⟩ | ⟨-, hsome⟩
  · cases hnone
  cases hsome
  refine ⟨?_, hprice⟩
  simp only [rescaled, capitalAt, bind_eq_ok, pure_eq_ok]
  exact ⟨_, ⟨pair, hpair, product, hproduct, quote, hquote, rfl⟩, d, hd, hcapital⟩

/-! ### The exits -/

/-- What an update that ends without a refusal leaves behind, by whether it reports a move. -/
structure Consistent (s : PriceState) (params : PoolParams) (shape : AmpGamma) (now : ℤ)
    (supply : Decimal) (xs : List Decimal) (last : Decimal) (moved : Bool) (t : PriceState) :
    Prop where
  last : t.last = last
  /-- The oracle and its clock are those of a move of the oracle by itself. -/
  oracle : ∃ m, s.moveOracle params.halfTime now = .ok m ∧ t.oracle = m.oracle ∧
    t.updated = m.updated
  /-- The capital is that of the balances at the scale that is stored, to which they are converted
  where the scale was moved. -/
  capital : (if moved then rescaled s.scale t.scale xs >>= capitalAt shape t.scale
    else capitalAt shape s.scale xs) = .ok t.capital
  virtualPrice : (t.capital / supply : Except Fault Decimal) = .ok t.virtualPrice

/-- On every exit of an update the oracle, its clock and the last price are those that a completed
oracle stage leaves, with the last price put in, or nothing has changed at all. -/
theorem oracle_of_update {outcome : Except Fault Bool}
    (h : s.update params shape now supply xs last = (t, outcome)) :
    t = s ∨ ∃ m, s.moveOracle params.halfTime now = .ok m ∧ t.oracle = m.oracle ∧
      t.updated = m.updated ∧ t.last = last := by
  cases updateEnds_of_update h with
  | refused => exact .inl rfl
  | observed _ hobserve =>
    obtain ⟨m, hm, rfl⟩ := exists_moved_of_observe hobserve
    exact .inr ⟨m, hm, rfl, rfl, rfl⟩
  | credited hobserve hcredit _ =>
    obtain ⟨m, hm, rfl⟩ := exists_moved_of_observe hobserve
    obtain ⟨_, _, _, rfl, -⟩ := exists_eq_of_credit hcredit
    exact .inr ⟨m, hm, rfl, rfl, rfl⟩
  | moved hobserve hcredit _ hrepeg =>
    obtain ⟨m, hm, rfl⟩ := exists_moved_of_observe hobserve
    obtain ⟨_, _, _, rfl, -⟩ := exists_eq_of_credit hcredit
    obtain ⟨_, _, _, _, _, rfl, -⟩ := exists_eq_of_repeg hrepeg
    exact .inr ⟨m, hm, rfl, rfl, rfl⟩

/-- No exit of an update turns the clock of the oracle back. -/
theorem updated_le_of_update {outcome : Except Fault Bool}
    (h : s.update params shape now supply xs last = (t, outcome)) : s.updated ≤ t.updated := by
  rcases oracle_of_update h with rfl | ⟨m, hm, -, hupdated, -⟩
  · exact le_rfl
  · obtain ⟨_, _, rfl, hle⟩ := exists_eq_of_moveOracle hm
    exact hupdated ▸ hle

/-- Only an update that reports a move changes the price scale. -/
theorem scale_eq_of_update {outcome : Except Fault Bool}
    (h : s.update params shape now supply xs last = (t, outcome)) (hstay : outcome ≠ .ok true) :
    t.scale = s.scale := by
  cases updateEnds_of_update h with
  | refused => rfl
  | observed _ hobserve =>
    obtain ⟨_, _, rfl⟩ := exists_eq_of_observe hobserve
    rfl
  | credited hobserve hcredit _ =>
    obtain ⟨_, _, rfl⟩ := exists_eq_of_observe hobserve
    obtain ⟨_, _, _, rfl, -⟩ := exists_eq_of_credit hcredit
    rfl
  | moved => exact absurd rfl hstay

/-- What an update that ends without a refusal leaves behind belongs together. -/
theorem consistent_of_update {moved : Bool}
    (h : s.update params shape now supply xs last = (t, .ok moved)) :
    s.Consistent params shape now supply xs last moved t := by
  cases updateEnds_of_update h with
  | credited hobserve hcredit hstay =>
    obtain rfl : moved = false := Bool.eq_false_iff.mpr fun hmoved ↦ hstay (congrArg _ hmoved)
    obtain ⟨hcapital, hprice⟩ := capitalAt_of_credit hcredit
    obtain ⟨_, _, _, rfl, -⟩ := exists_eq_of_credit hcredit
    obtain ⟨m, hm, rfl⟩ := exists_moved_of_observe hobserve
    obtain ⟨_, _, rfl, -⟩ := exists_eq_of_moveOracle hm
    exact ⟨rfl, ⟨_, hm, rfl, rfl⟩, hcapital, hprice⟩
  | moved hobserve hcredit hpair hrepeg =>
    obtain ⟨hcapital, hprice⟩ := capitalAt_of_repeg hpair hrepeg
    obtain ⟨_, _, _, _, _, rfl, -⟩ := exists_eq_of_repeg hrepeg
    obtain ⟨_, _, _, rfl, -⟩ := exists_eq_of_credit hcredit
    obtain ⟨m, hm, rfl⟩ := exists_moved_of_observe hobserve
    obtain ⟨_, _, rfl, -⟩ := exists_eq_of_moveOracle hm
    exact ⟨rfl, ⟨_, hm, rfl, rfl⟩, hcapital, hprice⟩

end PriceState

namespace PoolState

/-- What a price update leaves behind, on every exit: with a move, without one, and with a refusal
at any point. -/
theorem updatePrice_exits {s t : PoolState} {params : PoolParams} {now : ℤ}
    {supply last : Decimal} {xs : List Decimal} {outcome : Except Fault Bool}
    (h : s.updatePrice params now supply xs last = (t, outcome)) :
    t.promotion = s.promotion ∧ s.price.updated ≤ t.price.updated ∧
      (outcome ≠ .ok true → t.price.scale = s.price.scale) ∧
      ∀ moved, outcome = .ok moved →
        s.price.Consistent params (s.promotion.effective now) now supply xs last moved t.price := by
  have hupdate := update_of_updatePrice h
  refine ⟨?_, PriceState.updated_le_of_update hupdate, PriceState.scale_eq_of_update hupdate, ?_⟩
  · exact (congrArg promotion (congrArg Prod.fst h)).symm
  · rintro moved rfl
    exact PriceState.consistent_of_update hupdate

/-- The usual pool with a share of one unit and an oracle two percent above the price scale. -/
def ahead : PoolState :=
  { Pool.usual.state with
    price := { PriceState.start .one 0 with
      oracle := ⟨102 * Decimal.scale / 100, by decide⟩, profit := .one, virtualPrice := .one } }

/-- Nine hundred shares. -/
def nineHundred : Decimal := ⟨900 * Decimal.scale, by decide⟩

/-- Balances for nine hundred shares, with some more of the quote side. -/
def amplyBacked : List Decimal := [nineHundred, ⟨990 * Decimal.scale, by decide⟩]

/-- An update that moves the scale, and stores what belongs together there, and one that is refused
for want of a balance and leaves the scale. -/
theorem updatePrice_exits_ahead :
    (∃ t, ahead.updatePrice Pool.usual.params 600 nineHundred amplyBacked .one = (t, .ok true) ∧
      t.price.scale ≠ ahead.price.scale ∧
      ahead.price.Consistent Pool.usual.params (ahead.promotion.effective 600) 600 nineHundred
        amplyBacked .one true t.price) ∧
    ∃ t, ahead.updatePrice Pool.usual.params 600 nineHundred [nineHundred] .one =
        (t, .error (.balanceCount 1)) ∧
      t.price.oracle ≠ ahead.price.oracle ∧ t.price.scale = ahead.price.scale := by
  constructor
  · obtain ⟨moved, houtcome, hmoved⟩ := exists_of_any
      (ahead.updatePrice Pool.usual.params 600 nineHundred amplyBacked .one).2
      (fun moved ↦ moved) (by decide +kernel)
    obtain rfl : moved = true := hmoved
    have hupdate : ahead.updatePrice Pool.usual.params 600 nineHundred amplyBacked .one =
        (_, .ok true) := Prod.ext rfl houtcome
    exact ⟨_, hupdate, by decide +kernel, (updatePrice_exits hupdate).2.2.2 true rfl⟩
  · have hupdate : ahead.updatePrice Pool.usual.params 600 nineHundred [nineHundred] .one =
        (_, .error (.balanceCount 1)) := Prod.ext rfl (by decide +kernel)
    exact ⟨_, hupdate, by decide +kernel, (updatePrice_exits hupdate).2.2.1 (by simp)⟩

end PoolState

end ConcentratedPool
