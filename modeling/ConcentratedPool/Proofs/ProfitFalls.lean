import ConcentratedPool.Proofs.DecimalRounding
import ConcentratedPool.Proofs.PriceUpdate
import ConcentratedPool.Proofs.ShareBacking
import Mathlib.Algebra.Order.BigOperators.GroupWithZero.List

/-!
# The profit over falls of the virtual price

The profit grows with every rise of the virtual price and is left alone by every fall, while the
virtual price that the next rise is measured from follows the fall. A recovery is credited like any
other rise, so that after it the profit is above what the virtual price has ever been: half the
virtual price and back makes the profit two (`profit_exceeds_highest`).

What bounds the profit of a run of price updates is the product of all its rises, and the profit
times the product of all its falls is no more than the largest virtual price that was measured
(`profit_mul_falls_le`). Without a fall the profit is itself no more than that. The step lemma is
`UpdateCall.step`, and the run lemma `PriceState.run_bounds`.
-/

set_option autoImplicit false
set_option relaxedAutoImplicit false

namespace ConcentratedPool

/-! ### Runs of price updates -/

/-- A price update of a run: the promotion that is in force and the arguments. -/
structure UpdateCall where
  promotion : Promotion
  params : PoolParams
  now : ℤ
  supply : Decimal
  xs : List Decimal
  last : Decimal

/-- The virtual price that an update finds and the one that it measures. -/
structure PriceChange where
  stored : Decimal
  measured : Decimal
deriving DecidableEq

namespace PriceChange

/-- The factor by which the virtual price has changed. -/
def ratio (r : PriceChange) : ℚ := r.measured.toRat / r.stored.toRat

/-- The factor by which the virtual price has risen. There is no rise where none was stored. -/
def rise (r : PriceChange) : ℚ := max 1 r.ratio

/-- The factor by which the virtual price has fallen. -/
def fall (r : PriceChange) : ℚ := if r.measured < r.stored then r.ratio else 1

/-- All rises of the virtual price together. -/
def rises (changes : List PriceChange) : ℚ := (changes.map rise).prod

/-- All falls of the virtual price together. -/
def falls (changes : List PriceChange) : ℚ := (changes.map fall).prod

/-- The largest virtual price that was measured, and no less than one. -/
def highest (changes : List PriceChange) : ℚ :=
  (changes.map fun r ↦ r.measured.toRat).foldr max 1

end PriceChange

namespace UpdateCall

/-- The price state after an update that has to succeed. -/
def apply (call : UpdateCall) (s : PriceState) : Except Fault PriceState := do
  let (next, outcome) := (PoolState.mk call.promotion s).updatePrice call.params call.now
    call.supply call.xs call.last
  let _ ← outcome
  return next.price

/-- What an update finds and measures, at the price scale that it finds. -/
def change (call : UpdateCall) (s : PriceState) : Except Fault PriceChange := do
  return ⟨s.virtualPrice, ← virtualPriceAt (call.promotion.effective call.now) s.scale call.supply
    call.xs⟩

end UpdateCall

namespace PriceState

/-- Price updates one after the other, all of which have to succeed. -/
def updateEach (s : PriceState) (calls : List UpdateCall) : Except Fault PriceState :=
  calls.foldlM (fun s call ↦ call.apply s) s

/-- What each of the updates finds and measures. -/
def changes (s : PriceState) : List UpdateCall → Except Fault (List PriceChange)
  | [] => .ok []
  | call :: calls => do
    let r ← call.change s
    let rest ← (← call.apply s).changes calls
    return r :: rest

end PriceState

namespace PriceChange

variable {r : PriceChange} {changes : List PriceChange}

theorem ratio_nonneg (r : PriceChange) : 0 ≤ r.ratio :=
  div_nonneg r.measured.toRat_nonneg r.stored.toRat_nonneg

theorem one_le_rise (r : PriceChange) : 1 ≤ r.rise := le_max_left _ _

theorem fall_nonneg (r : PriceChange) : 0 ≤ r.fall := by
  unfold fall
  split_ifs
  · exact r.ratio_nonneg
  · exact zero_le_one

/-- Whatever is within the virtual price that an update finds is within the one that it measures,
after the rise and the fall between them. -/
theorem mul_rise_mul_fall_le {a : ℚ} (hnonneg : 0 ≤ a) (ha : a ≤ r.stored.toRat) :
    a * r.rise * r.fall ≤ r.measured.toRat := by
  rcases lt_or_ge r.measured.toRat r.stored.toRat with hfall | hrise
  · have hpos : 0 < r.stored.toRat := r.measured.toRat_nonneg.trans_lt hfall
    have hratio : r.ratio ≤ 1 := (div_le_one hpos).mpr hfall.le
    rw [rise, fall, if_pos (Decimal.toRat_lt_toRat.mp hfall), max_eq_left hratio, mul_one]
    calc a * r.ratio ≤ r.stored.toRat * r.ratio := mul_le_mul_of_nonneg_right ha r.ratio_nonneg
      _ = r.measured.toRat := mul_div_cancel₀ _ hpos.ne'
  · rw [fall, if_neg (Decimal.toRat_lt_toRat.not.mp (not_lt.mpr hrise)), mul_one]
    rcases r.stored.toRat_nonneg.eq_or_lt with hzero | hpos
    · have hnothing : a = 0 := le_antisymm (ha.trans hzero.ge) hnonneg
      rw [hnothing, zero_mul]
      exact r.measured.toRat_nonneg
    · have hratio : 1 ≤ r.ratio := (one_le_div hpos).mpr hrise
      rw [rise, max_eq_right hratio]
      calc a * r.ratio ≤ r.stored.toRat * r.ratio := mul_le_mul_of_nonneg_right ha r.ratio_nonneg
        _ = r.measured.toRat := mul_div_cancel₀ _ hpos.ne'

theorem rises_nonneg (changes : List PriceChange) : 0 ≤ rises changes := by
  refine List.prod_nonneg fun factor hfactor ↦ ?_
  obtain ⟨r, -, rfl⟩ := List.mem_map.mp hfactor
  exact zero_le_one.trans r.one_le_rise

theorem rises_cons : rises (r :: changes) = r.rise * rises changes := List.prod_cons

theorem falls_cons : falls (r :: changes) = r.fall * falls changes := List.prod_cons

/-- Without a fall, all falls together are none. -/
theorem falls_eq_one (h : ∀ r ∈ changes, r.stored ≤ r.measured) : falls changes = 1 := by
  refine List.prod_eq_one fun factor hfactor ↦ ?_
  obtain ⟨r, hr, rfl⟩ := List.mem_map.mp hfactor
  exact if_neg (Nat.not_lt.mpr (h r hr))

/-- No measured virtual price is above the largest one, and neither is one. -/
theorem measured_le_highest (changes : List PriceChange) :
    1 ≤ highest changes ∧ ∀ r ∈ changes, r.measured.toRat ≤ highest changes := by
  unfold highest
  induction changes with
  | nil => simp
  | cons r rest ih =>
    obtain ⟨hone, hrest⟩ := ih
    simp only [List.map_cons, List.foldr_cons, List.mem_cons, forall_eq_or_imp]
    exact ⟨le_max_of_le_right hone, le_max_left _ _, fun other hother ↦
      le_max_of_le_right (hrest other hother)⟩

end PriceChange

/-! ### One update -/

namespace PriceState

variable {s t u : PriceState} {params : PoolParams} {shape : AmpGamma} {now : ℤ}
variable {supply last : Decimal} {xs : List Decimal}

/-- The second stage credits the virtual price that it measures and stores. -/
theorem exists_grownProfit_of_credit (h : s.credit shape supply xs = .ok t) :
    virtualPriceAt shape s.scale supply xs = .ok t.virtualPrice ∧
      s.grownProfit t.virtualPrice = .ok t.profit := by
  simp only [credit, bind_eq_ok, pure_eq_ok] at h
  obtain ⟨d, hd, capital, hcapital, virtualPrice, hprice, profit, hprofit, rfl⟩ := h
  refine ⟨?_, hprofit⟩
  simp only [virtualPriceAt, bind_eq_ok]
  exact ⟨d, hd, capital, hcapital, hprice⟩

/-- An update that succeeds has measured a virtual price, which it credits. With a profit it stores
no less than that: only a repeg stores another one, and that one clears the gate. -/
theorem exists_measured_of_update {moved : Bool}
    (h : s.update params shape now supply xs last = (t, .ok moved)) :
    ∃ measured, virtualPriceAt shape s.scale supply xs = .ok measured ∧
      s.grownProfit measured = .ok t.profit ∧
      (0 < t.profit.raw → measured ≤ t.virtualPrice) := by
  cases updateEnds_of_update h with
  | credited hobserve hcredit _ =>
    obtain ⟨_, _, rfl⟩ := exists_eq_of_observe hobserve
    obtain ⟨hmeasured, hgrown⟩ := exists_grownProfit_of_credit hcredit
    exact ⟨_, hmeasured, hgrown, fun _ ↦ Nat.le_refl _⟩
  | moved hobserve hcredit _ hrepeg =>
    obtain ⟨_, _, rfl⟩ := exists_eq_of_observe hobserve
    obtain ⟨hmeasured, hgrown⟩ := exists_grownProfit_of_credit hcredit
    obtain ⟨_, _, _, _, _, rfl, _, _, _, _, _, hgate⟩ := exists_eq_of_repeg hrepeg
    exact ⟨_, hmeasured, hgrown, fun hprofit ↦ virtualPrice_le_of_cleared hprofit hgate⟩

/-- The profit grows by no more than the virtual price rises. Where none is stored, it does not
grow. -/
theorem toRat_grownProfit_le {measured profit : Decimal}
    (h : s.grownProfit measured = .ok profit) :
    profit.toRat ≤ s.profit.toRat * (PriceChange.mk s.virtualPrice measured).rise := by
  have hprofit : s.profit.toRat ≤
      s.profit.toRat * (PriceChange.mk s.virtualPrice measured).rise :=
    le_mul_of_one_le_right s.profit.toRat_nonneg (le_max_left _ _)
  unfold grownProfit at h
  rcases branch_eq_ok.mp h with ⟨-, hsame⟩ | ⟨-, hgrown⟩
  · rwa [← pure_eq_ok.mp hsame]
  · simp only [bind_eq_ok, pure_eq_ok] at hgrown
    obtain ⟨product, hproduct, grown, hquotient, rfl⟩ := hgrown
    unfold Decimal.max
    split_ifs with hlt
    · have hstored := (Decimal.toRat_div_bounds hquotient).1
      calc grown.toRat ≤ product.toRat / s.virtualPrice.toRat :=
            (Decimal.toRat_div_bounds hquotient).2.1
        _ ≤ s.profit.toRat * measured.toRat / s.virtualPrice.toRat :=
            div_le_div_of_nonneg_right (Decimal.toRat_mul_bounds hproduct).1 hstored.le
        _ = s.profit.toRat * (PriceChange.mk s.virtualPrice measured).ratio := mul_div_assoc _ _ _
        _ ≤ _ := mul_le_mul_of_nonneg_left (le_max_right _ _) s.profit.toRat_nonneg
    · exact hprofit

end PriceState

/-- An update that succeeds has measured a change of the virtual price. It credits the rise, lowers
no profit, and with a profit it stores no less than it measured. -/
theorem UpdateCall.step {call : UpdateCall} {s t : PriceState} (h : call.apply s = .ok t) :
    ∃ r : PriceChange, call.change s = .ok r ∧ r.stored = s.virtualPrice ∧ s.profit ≤ t.profit ∧
      t.profit.toRat ≤ s.profit.toRat * r.rise ∧
      (0 < s.profit.raw → r.measured ≤ t.virtualPrice) := by
  simp only [apply, bind_eq_ok, pure_eq_ok] at h
  obtain ⟨moved, houtcome, rfl⟩ := h
  have hpool : (PoolState.mk call.promotion s).updatePrice call.params call.now call.supply call.xs
      call.last = (_, .ok moved) := Prod.ext rfl houtcome
  obtain ⟨measured, hmeasured, hgrown, hstored⟩ :=
    PriceState.exists_measured_of_update (PoolState.update_of_updatePrice hpool)
  have hprofit := PriceState.profit_le_of_grownProfit hgrown
  refine ⟨⟨s.virtualPrice, measured⟩, ?_, rfl, hprofit, PriceState.toRat_grownProfit_le hgrown,
    fun hpos ↦ hstored (hpos.trans_le hprofit)⟩
  simp only [change, bind_eq_ok, pure_eq_ok]
  exact ⟨measured, hmeasured, rfl⟩

/-! ### The whole run -/

namespace PriceState

open PriceChange

/-- What a run of updates makes of the profit. The induction is over the updates, and `c` stands for
the falls before them: the profit, less those falls, is within the virtual price that is stored, and
so after every update it is within the one that was measured. -/
theorem run_bounds {calls : List UpdateCall} {s u : PriceState} (h : s.updateEach calls = .ok u)
    (hpos : 0 < s.profit.raw) :
    ∃ changes, s.changes calls = .ok changes ∧
      u.profit.toRat ≤ s.profit.toRat * rises changes ∧
      ∀ c bound : ℚ, 0 ≤ c → s.profit.toRat * c ≤ s.virtualPrice.toRat →
        s.profit.toRat * c ≤ bound → (∀ r ∈ changes, r.measured.toRat ≤ bound) →
        u.profit.toRat * (c * falls changes) ≤ bound := by
  induction calls generalizing s with
  | nil =>
    obtain rfl : s = u := pure_eq_ok.mp h
    refine ⟨[], rfl, ?_, fun c bound _ _ hbound _ ↦ ?_⟩
    · simp [rises]
    · simpa [falls] using hbound
  | cons call calls ih =>
    simp only [updateEach, List.foldlM_cons, bind_eq_ok] at h
    obtain ⟨t, hcall, hrest⟩ := h
    obtain ⟨r, hr, hfound, hprofit, hgrown, hstored⟩ := UpdateCall.step hcall
    obtain ⟨changes, hchanges, hrises, hfalls⟩ := ih hrest (hpos.trans_le hprofit)
    refine ⟨r :: changes, ?_, ?_, ?_⟩
    · simp only [PriceState.changes, bind_eq_ok, pure_eq_ok]
      exact ⟨r, hr, t, hcall, changes, hchanges, rfl⟩
    · calc u.profit.toRat ≤ t.profit.toRat * rises changes := hrises
        _ ≤ s.profit.toRat * r.rise * rises changes :=
            mul_le_mul_of_nonneg_right hgrown (rises_nonneg changes)
        _ = s.profit.toRat * rises (r :: changes) := by rw [rises_cons, mul_assoc]
    · intro c bound hc hbacked hbound hall
      rw [← hfound] at hbacked
      have hwithin : t.profit.toRat * (c * r.fall) ≤ r.measured.toRat :=
        calc t.profit.toRat * (c * r.fall) ≤ s.profit.toRat * r.rise * (c * r.fall) :=
              mul_le_mul_of_nonneg_right hgrown (mul_nonneg hc r.fall_nonneg)
          _ = s.profit.toRat * c * r.rise * r.fall := by ring
          _ ≤ r.measured.toRat :=
              mul_rise_mul_fall_le (mul_nonneg s.profit.toRat_nonneg hc) hbacked
      rw [falls_cons, ← mul_assoc c]
      exact hfalls _ bound (mul_nonneg hc r.fall_nonneg)
        (hwithin.trans (Decimal.toRat_le_toRat.mpr (hstored hpos)))
        (hwithin.trans (hall r List.mem_cons_self))
        fun other hother ↦ hall other (List.mem_cons_of_mem _ hother)

/-- The profit of a run of price updates that starts with a profit and a virtual price of one. It is
no more than all rises of the virtual price together. Times all falls together, it is no more than
the largest virtual price that was measured at a scale in force, or one; and without a fall it is
itself no more than that. -/
theorem profit_mul_falls_le {calls : List UpdateCall} {s u : PriceState} (hprofit : s.profit = .one)
    (hprice : s.virtualPrice = .one) (h : s.updateEach calls = .ok u) :
    ∃ changes, s.changes calls = .ok changes ∧
      u.profit.toRat ≤ rises changes ∧
      u.profit.toRat * falls changes ≤ highest changes ∧
      ((∀ r ∈ changes, r.stored ≤ r.measured) → u.profit.toRat ≤ highest changes) := by
  obtain ⟨changes, hchanges, hrises, hfalls⟩ := run_bounds h (by rw [hprofit]; decide)
  obtain ⟨hone, hall⟩ := measured_le_highest changes
  rw [hprofit, Decimal.toRat_one, one_mul] at hrises
  have hbound := hfalls 1 (highest changes) zero_le_one
    (by rw [hprofit, hprice, mul_one]) (by rwa [hprofit, Decimal.toRat_one, one_mul]) hall
  rw [one_mul] at hbound
  refine ⟨changes, hchanges, hrises, hbound, fun hnone ↦ ?_⟩
  rwa [falls_eq_one hnone, mul_one] at hbound

/-- The usual pool with a profit and a virtual price of one. -/
def atOne : PriceState := { start .one 0 with profit := .one, virtualPrice := .one }

/-- An update of the usual pool at the price one, with a thousand units on both sides. -/
def evenCall (supply : Decimal) (now : ℤ) : UpdateCall :=
  ⟨Pool.usual.state.promotion, Pool.usual.params, now, supply, [.thousand, .thousand], .one⟩

/-- Twice as many shares for the same balances, and back again after a minute. -/
def dilution : List UpdateCall :=
  [evenCall ⟨2 * Decimal.thousand.raw, by decide⟩ 0, evenCall .thousand 60]

/-- Over the dilution and the recovery the virtual price falls to one half and comes back to one,
and the profit becomes two. The price scale stays at the oracle, so that no other virtual price is
computed. -/
theorem profit_exceeds_highest :
    ∃ changes u, atOne.changes dilution = .ok changes ∧ atOne.updateEach dilution = .ok u ∧
      atOne.profit = .one ∧ atOne.virtualPrice = .one ∧ u.virtualPrice = .one ∧
      u.profit = .two ∧ highest changes < u.profit.toRat := by
  obtain ⟨changes, hchanges, hmeasured⟩ := exists_of_any (atOne.changes dilution)
    (fun changes ↦ changes.map (·.measured) =
      [⟨Decimal.scale / 2, by decide⟩, Decimal.one]) (by decide +kernel)
  obtain ⟨u, hu, hend⟩ := exists_of_any (atOne.updateEach dilution)
    (fun u ↦ u.virtualPrice = .one ∧ u.profit = .two) (by decide +kernel)
  obtain ⟨hprice, hprofit⟩ : u.virtualPrice = .one ∧ u.profit = .two := of_decide_eq_true hend
  have hmap : changes.map (·.measured) = [⟨Decimal.scale / 2, by decide⟩, Decimal.one] :=
    of_decide_eq_true hmeasured
  have hhighest : highest changes = 1 := by
    have hvalues : (changes.map fun r ↦ r.measured.toRat) = [1 / 2, 1] := by
      rw [← Function.comp_def Decimal.toRat, ← List.map_map, hmap]
      norm_num [Decimal.toRat, Decimal.one, Decimal.scale]
    rw [highest, hvalues]
    norm_num
  refine ⟨changes, u, hchanges, hu, rfl, rfl, hprice, hprofit, ?_⟩
  rw [hhighest, hprofit]
  norm_num [Decimal.toRat, Decimal.two, Decimal.scale]

/-- The bounds hold over the dilution and the recovery, and where the shares are halved instead, the
profit keeps to the largest virtual price. -/
theorem profit_mul_falls_le_dilution :
    atOne.profit = .one ∧ atOne.virtualPrice = .one ∧
    (∃ changes u, atOne.changes dilution = .ok changes ∧ atOne.updateEach dilution = .ok u ∧
      u.profit.toRat ≤ rises changes ∧ u.profit.toRat * falls changes ≤ highest changes) ∧
    ∃ changes u, atOne.changes [evenCall ⟨Decimal.thousand.raw / 2, by decide⟩ 0] = .ok changes ∧
      atOne.updateEach [evenCall ⟨Decimal.thousand.raw / 2, by decide⟩ 0] = .ok u ∧
      (∀ r ∈ changes, r.stored ≤ r.measured) ∧ u.profit.toRat ≤ highest changes := by
  refine ⟨rfl, rfl, ?_, ?_⟩
  · obtain ⟨u, hu, -⟩ := exists_of_any (atOne.updateEach dilution) (fun _ ↦ true)
      (by decide +kernel)
    obtain ⟨changes, hchanges, hrises, hfalls, -⟩ := profit_mul_falls_le rfl rfl hu
    exact ⟨changes, u, hchanges, hu, hrises, hfalls⟩
  · obtain ⟨u, hu, -⟩ := exists_of_any
      (atOne.updateEach [evenCall ⟨Decimal.thousand.raw / 2, by decide⟩ 0]) (fun _ ↦ true)
      (by decide +kernel)
    obtain ⟨changes, hchanges, -, -, hhighest⟩ := profit_mul_falls_le rfl rfl hu
    obtain ⟨change, hchange, hrising⟩ := exists_of_any
      (atOne.changes [evenCall ⟨Decimal.thousand.raw / 2, by decide⟩ 0])
      (fun changes ↦ ∀ r ∈ changes, r.stored ≤ r.measured) (by decide +kernel)
    obtain rfl : changes = change := Except.ok.inj (hchanges.symm.trans hchange)
    have hrises : ∀ r ∈ changes, r.stored ≤ r.measured := by simpa using hrising
    exact ⟨changes, u, hchanges, hu, hrises, hhighest hrises⟩

end PriceState

end ConcentratedPool
