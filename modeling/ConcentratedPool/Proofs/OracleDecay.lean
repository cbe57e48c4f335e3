import ConcentratedPool.Proofs.HalfPowerAccuracy
import ConcentratedPool.Proofs.OracleRange

/-!
# The decay of the oracle

While no trade changes the last price, the distance of the oracle from it is halved in every
half-life: `PriceState.decayedOracle` is that law without rounding. The law does not care how often
the oracle is moved on the way (`PriceState.decayedOracle_later`), and each move keeps to it up to
`PriceState.moveError`: the weight is a computed power of one half
(`PriceState.abs_oracleWeight_sub_le`), and two products are rounded down
(`PriceState.exists_blend_of_moveOracle`). An error that is there already is not increased by a
later move, because the weight is at most one.

`PriceState.Decayed` is what a run of moves preserves, and its error is one `moveError` for each
move. Two runs that end at the same time are therefore near to each other; `oracle_near_of_poke` is
the case of one move against two.
-/

set_option autoImplicit false
set_option relaxedAutoImplicit false

namespace ConcentratedPool

/-- A power of one half changes no faster than its exponent. -/
theorem abs_exactHalfPower_sub_le {x y : ℝ} (hx : 0 ≤ x) (hxy : x ≤ y) :
    |exactHalfPower x - exactHalfPower y| ≤ y - x := by
  obtain ⟨hpos, hone⟩ := exactHalfPower_mem hx
  have hrest := (exactHalfPower_mem (sub_nonneg.mpr hxy)).2
  have hsplit : exactHalfPower x - exactHalfPower y =
      exactHalfPower x * (1 - exactHalfPower (y - x)) := by
    rw [mul_sub, mul_one, ← exactHalfPower_add, add_sub_cancel]
  have hslope : 1 - exactHalfPower (y - x) ≤ y - x := by
    have htwo : Real.log 2 ≤ 1 := by linarith [Real.log_le_sub_one_of_pos two_pos]
    have hlog : Real.log 2 * (y - x) ≤ 1 * (y - x) :=
      mul_le_mul_of_nonneg_right htwo (sub_nonneg.mpr hxy)
    rw [exactHalfPower, Real.rpow_def_of_pos two_pos]
    linarith [Real.add_one_le_exp (Real.log 2 * -(y - x))]
  rw [hsplit, abs_of_nonneg (mul_nonneg hpos.le (by linarith))]
  exact (mul_le_of_le_one_left (by linarith) hone).trans hslope

namespace PriceState

variable {s t start : PriceState} {halfTime now : ℤ} {weight : Decimal} {n : ℕ} {times : List ℤ}

/-! ### The law -/

/-- The weight that the oracle keeps, without rounding. -/
noncomputable def exactWeight (s : PriceState) (halfTime now : ℤ) : ℝ :=
  exactHalfPower ((now - s.updated : ℤ) / halfTime)

/-- The oracle at a later time without rounding, while the last price stays. -/
noncomputable def decayedOracle (s : PriceState) (halfTime now : ℤ) : ℝ :=
  s.last.toRat - (s.last.toRat - s.oracle.toRat) * s.exactWeight halfTime now

theorem exactWeight_mem (hhalf : 0 < halfTime) (hlate : s.updated ≤ now) :
    0 < s.exactWeight halfTime now ∧ s.exactWeight halfTime now ≤ 1 := by
  refine exactHalfPower_mem (div_nonneg ?_ ?_)
  · exact_mod_cast sub_nonneg.mpr hlate
  · exact_mod_cast hhalf.le

/-- At its own time the oracle has not decayed yet. -/
theorem decayedOracle_self (s : PriceState) (halfTime : ℤ) :
    s.decayedOracle halfTime s.updated = s.oracle.toRat := by
  simp [decayedOracle, exactWeight, exactHalfPower_zero]

/-- The law from a start and the law from a state on the way, which has the same last price. -/
theorem decayedOracle_later (start s : PriceState) (halfTime now : ℤ) :
    start.decayedOracle halfTime now = start.last.toRat -
      (start.last.toRat - start.decayedOracle halfTime s.updated) * s.exactWeight halfTime now := by
  have hweight : start.exactWeight halfTime now =
      start.exactWeight halfTime s.updated * s.exactWeight halfTime now := by
    unfold exactWeight
    rw [← exactHalfPower_add]
    congr 1
    push_cast
    ring
  unfold decayedOracle
  rw [hweight]
  ring

/-- The distance from the last price does not grow. -/
theorem abs_sub_decayedOracle_le (hhalf : 0 < halfTime) (hlate : s.updated ≤ now) :
    |s.last.toRat - s.decayedOracle halfTime now| ≤
      |(s.last.toRat - s.oracle.toRat : ℝ)| := by
  obtain ⟨hpos, hone⟩ := exactWeight_mem hhalf hlate
  rw [decayedOracle, sub_sub_cancel, abs_mul, abs_of_pos hpos]
  exact mul_le_of_le_one_right (abs_nonneg _) hone

/-! ### One move -/

/-- The weight that is computed: the error of the power, and at most a unit because the exponent is
rounded. -/
theorem abs_oracleWeight_sub_le (hhalf : 0 < halfTime)
    (h : s.oracleWeight halfTime now = .ok weight) :
    |(weight.toRat : ℝ) - s.exactWeight halfTime now| ≤ 2 / 10 ^ 10 := by
  unfold oracleWeight at h
  rw [if_neg hhalf.ne'] at h
  simp only [bind_eq_ok] at h
  obtain ⟨power, hpower, hweight⟩ := h
  obtain ⟨hle, hlt⟩ := Decimal.toRat_ofRatio_bounds hhalf hpower
  have hleReal : (power.toRat : ℝ) ≤ (now - s.updated : ℤ) / halfTime := by exact_mod_cast hle
  have hltReal : ((now - s.updated : ℤ) / halfTime : ℝ) < power.toRat + Decimal.ulp := by
    exact_mod_cast hlt
  have hexponent := abs_exactHalfPower_sub_le (by exact_mod_cast power.toRat_nonneg) hleReal
  have hpowerError := abs_halfPower_sub_le hweight
  unfold exactWeight
  linarith [abs_sub_le (weight.toRat : ℝ) (exactHalfPower power.toRat)
    (exactHalfPower ((now - s.updated : ℤ) / halfTime)), seriesError_add_le]

/-- A move at a later time blends by the computed weight, and its two products lose less than a unit
each. It changes the oracle and its clock. -/
theorem exists_blend_of_moveOracle (hlate : s.updated < now)
    (h : s.moveOracle halfTime now = .ok t) :
    ∃ weight, s.oracleWeight halfTime now = .ok weight ∧
      t = { s with oracle := t.oracle, updated := now } ∧
      |t.oracle.toRat - (s.last.toRat - (s.last.toRat - s.oracle.toRat) * weight.toRat)| ≤
        2 * Decimal.ulp := by
  unfold moveOracle at h
  rw [if_neg (not_le.mpr hlate)] at h
  simp only [bind_eq_ok, pure_eq_ok] at h
  obtain ⟨weight, hweight, rest, hrest, fresh, hfresh, kept, hkept, oracle, horacle, rfl⟩ := h
  refine ⟨weight, hweight, rfl, ?_⟩
  have hfreshBounds := Decimal.toRat_mul_bounds hfresh
  have hkeptBounds := Decimal.toRat_mul_bounds hkept
  rw [Decimal.toRat_sub hrest, Decimal.toRat_one] at hfreshBounds
  have hsum : oracle.toRat = fresh.toRat + kept.toRat := Decimal.toRat_add horacle
  show |oracle.toRat - _| ≤ _
  rw [abs_le, hsum]
  constructor <;> linarith [Decimal.ulp_nonneg]

/-- How far one move can be from the law. -/
def moveError (s : PriceState) : ℚ := 2 / 10 ^ 10 * |s.last.toRat - s.oracle.toRat| + 2 * Decimal.ulp

theorem moveError_nonneg (s : PriceState) : 0 ≤ s.moveError :=
  add_nonneg (by positivity) (mul_nonneg zero_le_two Decimal.ulp_nonneg)

theorem moveError_cast (s : PriceState) : (s.moveError : ℝ) =
    2 / 10 ^ 10 * |(s.last.toRat - s.oracle.toRat : ℝ)| + 2 * Decimal.ulp := by
  unfold moveError
  push_cast
  rfl

/-! ### Runs of moves -/

/-- A blend by a rounded weight, of an oracle that is near to the law. What is wrong with the
oracle is weighted, so it does not grow, and what is wrong with the weight counts for the distance
of the decayed oracle from the last price. -/
theorem abs_blend_sub_le {last oracle law moved w a κ ε d δ : ℝ}
    (hblend : |moved - (last - (last - oracle) * w)| ≤ δ) (hnear : |oracle - law| ≤ κ)
    (hdistance : |last - law| ≤ d) (hweight : |w - a| ≤ ε) (hlow : 0 ≤ w) (hhigh : w ≤ 1) :
    |moved - (last - (last - law) * a)| ≤ κ + (ε * d + δ) := by
  have hcarried : |(oracle - law) * w| ≤ κ := by
    rw [abs_mul, abs_of_nonneg hlow]
    exact (mul_le_of_le_one_right (abs_nonneg _) hhigh).trans hnear
  have hnew : |(w - a) * (last - law)| ≤ ε * d := by
    rw [abs_mul]
    exact mul_le_mul hweight hdistance (abs_nonneg _) ((abs_nonneg _).trans hweight)
  have hsplit : moved - (last - (last - law) * a) =
      (moved - (last - (last - oracle) * w)) +
        ((oracle - law) * w - (w - a) * (last - law)) := by ring
  rw [hsplit]
  have hfirst := abs_add_le (moved - (last - (last - oracle) * w))
    ((oracle - law) * w - (w - a) * (last - law))
  have hsecond := abs_sub ((oracle - law) * w) ((w - a) * (last - law))
  linarith

/-- Moves the oracle at each of the given times. -/
def moveOracles (s : PriceState) (halfTime : ℤ) (times : List ℤ) : Except Fault PriceState :=
  times.foldlM (fun s now ↦ s.moveOracle halfTime now) s

/-- What `n` moves of the oracle preserve: nothing but the oracle and its clock changes, the clock
does not run backward, and the oracle is the decayed one of that time, up to an error for each
move. -/
structure Decayed (start : PriceState) (halfTime : ℤ) (n : ℕ) (s : PriceState) : Prop where
  frame : s = { start with oracle := s.oracle, updated := s.updated }
  later : start.updated ≤ s.updated
  near : |s.oracle.toRat - start.decayedOracle halfTime s.updated| ≤ n * start.moveError

namespace Decayed

theorem refl (start : PriceState) (halfTime : ℤ) : start.Decayed halfTime 0 start :=
  ⟨rfl, le_rfl, by simp [decayedOracle_self]⟩

/-- The last price stays. -/
theorem last_eq (h : start.Decayed halfTime n s) : s.last = start.last := by
  rw [h.frame]

/-- A move costs one error. -/
theorem moveOracle (hhalf : 0 < halfTime) (h : start.Decayed halfTime n s)
    (hmove : s.moveOracle halfTime now = .ok t) : start.Decayed halfTime (n + 1) t := by
  by_cases hlate : s.updated < now
  · obtain ⟨weight, hweight, hframe, hblend⟩ := exists_blend_of_moveOracle hlate hmove
    have hupdated : t.updated = now := by rw [hframe]
    refine ⟨?_, ?_, ?_⟩
    · rw [hframe]
      conv_lhs => rw [h.frame]
    · rw [hupdated]
      exact h.later.trans hlate.le
    · rw [h.last_eq] at hblend
      have hone : weight.toRat ≤ 1 := Decimal.toRat_le_one.mpr (oracleWeight_le_one hweight)
      have hmoved : |(t.oracle.toRat - (start.last.toRat - (start.last.toRat - s.oracle.toRat) *
          weight.toRat) : ℝ)| ≤ 2 * Decimal.ulp := by exact_mod_cast hblend
      have hstep := abs_blend_sub_le hmoved h.near (abs_sub_decayedOracle_le hhalf h.later)
        (abs_oracleWeight_sub_le hhalf hweight) (by exact_mod_cast weight.toRat_nonneg)
        (by exact_mod_cast hone)
      rw [← moveError_cast] at hstep
      rwa [hupdated, decayedOracle_later start s, Nat.cast_succ, add_mul, one_mul]
  · unfold PriceState.moveOracle at hmove
    rw [if_pos (not_lt.mp hlate)] at hmove
    obtain rfl := pure_eq_ok.mp hmove
    refine ⟨h.frame, h.later, h.near.trans ?_⟩
    exact mul_le_mul_of_nonneg_right (by exact_mod_cast n.le_succ)
      (by exact_mod_cast start.moveError_nonneg)

/-- A run costs one error for each move. -/
theorem run (hhalf : 0 < halfTime) (h : start.Decayed halfTime n s)
    (hrun : s.moveOracles halfTime times = .ok t) :
    start.Decayed halfTime (n + times.length) t := by
  induction times generalizing n s with
  | nil =>
    obtain rfl := pure_eq_ok.mp hrun
    exact h
  | cons now times ih =>
    rw [moveOracles, List.foldlM_cons, bind_eq_ok] at hrun
    obtain ⟨next, hmove, hrest⟩ := hrun
    have hdecayed := ih (h.moveOracle hhalf hmove) hrest
    rw [List.length_cons]
    rwa [Nat.add_assoc, Nat.add_comm 1] at hdecayed

end Decayed

/-- The clock of the oracle shows the latest of its times. -/
theorem updated_of_moveOracle (h : s.moveOracle halfTime now = .ok t) :
    t.updated = max s.updated now := by
  by_cases hlate : s.updated < now
  · obtain ⟨_, -, hframe, -⟩ := exists_blend_of_moveOracle hlate h
    rw [hframe]
    exact (max_eq_right hlate.le).symm
  · unfold moveOracle at h
    rw [if_pos (not_lt.mp hlate)] at h
    obtain rfl := pure_eq_ok.mp h
    exact (max_eq_left (not_lt.mp hlate)).symm

/-- A run can be carried out if all its times are less than `10⁴⁰` seconds ahead. Its clock shows the
latest of them. -/
theorem exists_moveOracles (hhalf : 0 ≤ halfTime)
    (hsoon : ∀ now ∈ times, now - s.updated < 10 ^ 40) :
    ∃ t, s.moveOracles halfTime times = .ok t ∧ t.updated = times.foldl max s.updated := by
  induction times generalizing s with
  | nil => exact ⟨s, rfl, rfl⟩
  | cons now times ih =>
    obtain ⟨next, hmove⟩ := exists_moveOracle hhalf (hsoon now List.mem_cons_self)
    have hclock := updated_of_moveOracle hmove
    obtain ⟨t, ht, hlatest⟩ := ih (s := next) fun later hmem ↦ by
      have := hsoon later (List.mem_cons_of_mem _ hmem)
      omega
    refine ⟨t, ?_, ?_⟩
    · rw [moveOracles, List.foldlM_cons, bind_eq_ok]
      exact ⟨next, hmove, ht⟩
    · rw [List.foldl_cons, hlatest, hclock]

/-- Two runs of moves from one state to one time end near to each other. They differ in nothing but
the oracle, by one error for each move of either. -/
theorem exists_near_of_runs (hhalf : 0 < halfTime) {times' : List ℤ}
    (hsoon : ∀ now ∈ times, now - s.updated < 10 ^ 40)
    (hsoon' : ∀ now ∈ times', now - s.updated < 10 ^ 40)
    (htime : times.foldl max s.updated = times'.foldl max s.updated) :
    ∃ t t', s.moveOracles halfTime times = .ok t ∧ s.moveOracles halfTime times' = .ok t' ∧
      t = { t' with oracle := t.oracle } ∧
      |t.oracle.toRat - t'.oracle.toRat| ≤ (times.length + times'.length) * s.moveError := by
  obtain ⟨t, ht, hclock⟩ := exists_moveOracles hhalf.le hsoon
  obtain ⟨t', ht', hclock'⟩ := exists_moveOracles hhalf.le hsoon'
  have hdecayed := (Decayed.refl s halfTime).run hhalf ht
  have hdecayed' := (Decayed.refl s halfTime).run hhalf ht'
  rw [Nat.zero_add] at hdecayed hdecayed'
  have hsame : t.updated = t'.updated := by rw [hclock, hclock', htime]
  refine ⟨t, t', ht, ht', ?_, ?_⟩
  · rw [hdecayed'.frame, ← hsame]
    exact hdecayed.frame
  · have hnear := hdecayed'.near
    rw [← hsame, abs_sub_comm] at hnear
    have hboth := (abs_sub_le _ _ _).trans (add_le_add hdecayed.near hnear)
    rw [← add_mul] at hboth
    exact_mod_cast hboth

/-- How often the oracle is moved does not matter. A move on the way to a later time, while the last
price stays, changes what the oracle is at that time by at most `10⁻⁹` of its distance from the last
price, and ten units of the last place; and it changes nothing else. Both ways can be gone up to
`10⁴⁰` seconds. -/
theorem oracle_near_of_poke (s : PriceState) {halfTime t₁ t₂ : ℤ} (hhalf : 0 < halfTime)
    (hfirst : s.updated < t₁) (hsecond : t₁ < t₂) (hsoon : t₂ - s.updated < 10 ^ 40) :
    ∃ poked twice once, s.moveOracle halfTime t₁ = .ok poked ∧
      poked.moveOracle halfTime t₂ = .ok twice ∧ s.moveOracle halfTime t₂ = .ok once ∧
      twice = { once with oracle := twice.oracle } ∧
      |twice.oracle.toRat - once.oracle.toRat| ≤
        1 / 10 ^ 9 * |s.last.toRat - s.oracle.toRat| + 10 * Decimal.ulp := by
  have hlatest : [t₁, t₂].foldl max s.updated = [t₂].foldl max s.updated := by
    simp only [List.foldl_cons, List.foldl_nil]
    omega
  have hboth : ∀ now ∈ [t₁, t₂], now - s.updated < 10 ^ 40 := by
    intro now hnow
    rcases List.mem_pair.mp hnow with rfl | rfl <;> omega
  have hlast : ∀ now ∈ [t₂], now - s.updated < 10 ^ 40 := by
    intro now hnow
    rwa [List.mem_singleton.mp hnow]
  obtain ⟨twice, once, htwice, honce, hframe, hnear⟩ :=
    exists_near_of_runs hhalf hboth hlast hlatest
  simp only [moveOracles, List.foldlM_cons, List.foldlM_nil, bind_eq_ok, pure_eq_ok] at htwice honce
  obtain ⟨poked, hpoked, _, htwice, rfl⟩ := htwice
  obtain ⟨_, honce, rfl⟩ := honce
  refine ⟨poked, _, _, hpoked, htwice, honce, hframe, ?_⟩
  unfold moveError at hnear
  simp only [List.length_cons, List.length_nil] at hnear
  push_cast at hnear
  linarith [abs_nonneg (s.last.toRat - s.oracle.toRat), Decimal.ulp_nonneg]

/-- A pool at the price one after a trade at the price two. With a half-life of 600 seconds, a move
after 250 of them does not matter for the oracle after 700, though the second move is on its own
shorter than a half-life and the whole way is longer. -/
theorem oracle_near_of_poke_usual :
    let s := { PriceState.start .one 0 with last := .two }
    ∃ poked twice once, s.moveOracle 600 250 = .ok poked ∧
      poked.moveOracle 600 700 = .ok twice ∧ s.moveOracle 600 700 = .ok once ∧
      poked.oracle.raw = 1_250_846_461_484_282_889 ∧
      |twice.oracle.toRat - once.oracle.toRat| ≤ 1 / 10 ^ 9 + 10 * Decimal.ulp := by
  intro s
  obtain ⟨poked, twice, once, hpoked, htwice, honce, -, hnear⟩ :=
    oracle_near_of_poke s (by decide : (0 : ℤ) < 600) (by decide : s.updated < 250)
      (by decide : (250 : ℤ) < 700) (by decide)
  have hway : |s.last.toRat - s.oracle.toRat| = 1 := by
    norm_num [s, PriceState.start, Decimal.toRat, Decimal.two, Decimal.one, Decimal.scale]
  rw [hway, mul_one] at hnear
  have hraw : ((s.moveOracle 600 250).toOption.map fun t ↦ t.oracle.raw) =
      some 1_250_846_461_484_282_889 := by decide +kernel
  rw [hpoked] at hraw
  exact ⟨poked, twice, once, hpoked, htwice, honce, Option.some.inj hraw, hnear⟩

end PriceState

end ConcentratedPool
