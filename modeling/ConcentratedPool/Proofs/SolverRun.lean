import ConcentratedPool.Proofs.StepRounding

/-!
# A run of the solver of the invariant

`AmpGamma.Settles` says that the solver settles within a number of steps. One computed step is
either short enough to end the run, or it follows the tangent and the basin is kept
(`AmpGamma.settles_succ`). The run is then counted from its end:

* from a value of at most three tenths of the span it settles within 12 steps, because the value is
  squared (`AmpGamma.settles_of_near`);
* from where the rest of the span has odds `o` against the value, after as many more steps as the
  odds take to grow to those of three tenths (`AmpGamma.settles_of_odds`);
* from where the coefficient's part of `F` is at most `9 / 2 * 3 ^ n` times the product of reach and
  invariant, within `24 + n` steps, because each long step divides that by three
  (`AmpGamma.settles_of_steep`).
-/

set_option autoImplicit false
set_option relaxedAutoImplicit false

namespace ConcentratedPool

/-- An iteration that settles does so with more steps, too. -/
theorem settle_mono {α : Type} {solver : Solver} {step : α → Except Fault α}
    {close : α → α → Except Fault Bool} {m n : ℕ} {x y : α} (hmn : m ≤ n)
    (h : settle solver step close m x = .ok y) : settle solver step close n x = .ok y := by
  induction m generalizing n x with
  | zero => cases h
  | succ m ih =>
    obtain ⟨n, rfl⟩ : ∃ k, n = k + 1 := ⟨n - 1, by omega⟩
    simp only [settle, bind_eq_ok] at h ⊢
    obtain ⟨next, hnext, isClose, hclose, h⟩ := h
    refine ⟨next, hnext, isClose, hclose, ?_⟩
    rcases branch_eq_ok.mp h with ⟨hend, h⟩ | ⟨hend, h⟩
    · exact branch_eq_ok.mpr (.inl ⟨hend, h⟩)
    · exact branch_eq_ok.mpr (.inr ⟨hend, ih (by omega) h⟩)

/-- Of two numbers that are not too large it is decided whether they are within the tolerance. -/
theorem SignedDecimal.exists_isClose {a b : SignedDecimal} (ha : |a.toRat| ≤ 10 ^ 57)
    (hb : |b.toRat| ≤ 10 ^ 57) : isClose a b = .ok true ∨
      isClose a b = .ok false ∧ Limits.tolerance.toRat < |a.toRat - b.toRat| := by
  obtain ⟨gap, hgap⟩ : ∃ gap, a.distance b = .ok gap := by
    refine exists_of_raw ?_
    rw [Int.cast_natCast, Nat.cast_natAbs, Int.cast_abs, Int.cast_sub, abs_abs]
    refine (abs_sub _ _).trans ?_
    rw [abs_raw, abs_raw]
    linarith
  have hraw : (gap.raw : ℤ) = |a.raw - b.raw| := by
    rw [distance, ofRaw_eq_ok] at hgap
    rw [hgap, Int.abs_eq_natAbs]
  have hvalue : isClose a b = .ok (decide (gap ≤ Limits.tolerance.toSigned)) := by
    unfold isClose
    rw [hgap]
    rfl
  rcases le_or_gt gap.raw Limits.tolerance.toSigned.raw with hle | hlt
  · exact .inl (hvalue.trans (congrArg _ (decide_eq_true hle)))
  · refine .inr ⟨hvalue.trans (congrArg _ (decide_eq_false (not_le.mpr hlt))), ?_⟩
    have hscale := Decimal.cast_scale_pos
    rw [hraw] at hlt
    rw [toRat, toRat, ← sub_div, abs_div, abs_of_pos hscale, Decimal.toRat]
    exact div_lt_div_of_pos_right (by exact_mod_cast hlt) hscale

namespace AmpGamma

variable (a : AmpGamma) (y : Pair SignedDecimal)

/-- The solver of the invariant settles within `n` steps from `e`, at a positive number. -/
def Settles (n : ℕ) (e : SignedDecimal) : Prop :=
  ∃ r, settle .invariant (a.curve.stepInvariant y) SignedDecimal.isClose n e = .ok r ∧ 0 < r.toRat

/-- What one step makes of the odds `o` of the rest of the span against the value, at least. -/
def growOdds (o : ℚ) : ℚ := o * (1 + 99 / 200 / (1 + o))

variable {a y} {n : ℕ} {e : SignedDecimal}

theorem Settles.mono {m : ℕ} (h : a.Settles y m e) (hmn : m ≤ n) : a.Settles y n e := by
  obtain ⟨r, hr, hpos⟩ := h
  exact ⟨r, settle_mono hmn hr, hpos⟩

section Run

variable {x : Pair ℚ} (hx : y.map SignedDecimal.toRat = x) (hs : a.Moderate x)
include hx hs

/-- In the basin the solver settles if it does so after every step that follows the tangent and is
longer than the tolerance. -/
theorem settles_succ (h : a.Basin e.toRat x)
    (hnext : ∀ next ρ, next.toRat = a.moved e.toRat x ρ → (a.tangent e.toRat x).Follows ρ →
      Limits.tolerance.toRat < |ρ| * (a.tangent e.toRat x).reach → a.Settles y n next) :
    a.Settles y (n + 1) e := by
  obtain ⟨next, hstep, hpos, hle, htangent⟩ := h.exists_step hs rfl hx
  rcases SignedDecimal.exists_isClose (hle.trans (by norm_num))
    ((h.abs_size_le hs rfl).trans (by norm_num)) with hclose | ⟨hclose, hfar⟩
  · refine ⟨next, ?_, hpos⟩
    simp only [settle, bind_eq_ok]
    exact ⟨next, hstep, true, hclose, rfl⟩
  · obtain ⟨ρ, hmoved, hfollows, hlong⟩ := h.exists_follows hs hfar htangent
    obtain ⟨r, hr, hrPos⟩ := hnext next ρ hmoved hfollows hlong
    refine ⟨r, ?_, hrPos⟩
    simp only [settle, bind_eq_ok]
    exact ⟨next, hstep, false, hclose, hr⟩

/-! ### Near the root -/

/-- A value of at most the part `q` of the span becomes one of at most the part `r`. -/
theorem settles_of_smaller {q r : ℚ} (h : a.Basin e.toRat x)
    (hq : q ≤ 3 / 10) (hqr : q * (41 / 20 * q + 21 / 1000) ≤ r)
    (hthen : ∀ next : SignedDecimal, a.Basin next.toRat x →
      |(a.tangent next.toRat x).value| ≤ r * (a.tangent next.toRat x).span → a.Settles y n next)
    (hsmall : |(a.tangent e.toRat x).value| ≤ q * (a.tangent e.toRat x).span) :
    a.Settles y (n + 1) e := by
  refine settles_succ hx hs h fun next ρ hnext hfollows _ ↦ ?_
  have hless := h.abs_value_next_le hs hfollows hq hsmall
  have hspan := (h.next hs hfollows).span_pos hs
  rw [← hnext] at hless hspan
  exact hthen next (hnext ▸ h.next hs hfollows)
    (hless.trans (mul_le_mul_of_nonneg_right hqr hspan.le))

/-- From a value of at most `3 / 200` of the span on, each step divides it by nineteen at least,
down to a step that is within the tolerance whatever the size of the pool. -/
theorem settles_of_tiny (m : ℕ) {q : ℚ} (h : a.Basin e.toRat x) (hq : q ≤ 3 / 200)
    (hm : q ≤ 8 / 10 ^ 12 * 19 ^ m)
    (hsmall : |(a.tangent e.toRat x).value| ≤ q * (a.tangent e.toRat x).span) :
    a.Settles y (m + 1) e := by
  induction m generalizing e q with
  | zero =>
    refine settles_succ hx hs h fun next ρ _ hfollows hfar ↦ ?_
    have hstep := hfollows.abs_le (h.span_pos hs) hsmall
    have hreach := (h.regular hs).reach_pos
    have hsize := (h.regular hs).reach_le.trans (h.size_le hs)
    have hshort := mul_le_mul (hstep.trans (by linarith : 100 / 99 * q ≤ 81 / 10 ^ 13)) hsize
      hreach.le (by norm_num)
    rw [Limits.tolerance_toRat] at hfar
    linarith
  | succ m ih =>
    have hqNonneg : 0 ≤ q := nonneg_of_mul_nonneg_left ((abs_nonneg _).trans hsmall) (h.span_pos hs)
    refine settles_of_smaller hx hs h (by linarith) (by nlinarith : _ ≤ q / 19)
      (fun next h' hsmall' ↦ ih h' (by linarith) ?_ hsmall') hsmall
    rw [pow_succ (19 : ℚ)] at hm
    linarith

/-- From a value of at most three tenths of the span the solver settles within twelve steps. -/
theorem settles_of_near (h : a.Basin e.toRat x)
    (hsmall : |(a.tangent e.toRat x).value| ≤ 3 / 10 * (a.tangent e.toRat x).span) :
    a.Settles y 12 e :=
  settles_of_smaller hx hs h le_rfl (by norm_num : _ ≤ (191 / 1000 : ℚ)) (fun _ h ↦
    settles_of_smaller hx hs h (by norm_num) (by norm_num : _ ≤ (79 / 1000 : ℚ)) fun _ h ↦
      settles_of_smaller hx hs h (by norm_num) (by norm_num : _ ≤ (3 / 200 : ℚ)) fun _ h ↦
        settles_of_tiny hx hs 8 h le_rfl (by norm_num)) hsmall

/-! ### Before the root -/

/-- The odds `o` grow to those of three tenths in `n` steps. -/
theorem settles_of_odds (n : ℕ) {o : ℚ} (h : a.Basin e.toRat x)
    (hlack : 0 ≤ (a.tangent e.toRat x).lack) (ho : 0 < o) (hn : 7 / 3 ≤ growOdds^[n] o)
    (hodds : o * (a.tangent e.toRat x).value ≤
      (a.tangent e.toRat x).span - (a.tangent e.toRat x).value) : a.Settles y (12 + n) e := by
  have hspan := h.span_pos hs
  have hback := h.value_ge
  induction n generalizing e o with
  | zero =>
    refine settles_of_near hx hs h (abs_le.mpr ⟨by linarith, ?_⟩)
    rw [Function.iterate_zero, id] at hn
    rcases le_total 0 (a.tangent e.toRat x).value with hpos | hneg
    · linarith [mul_le_mul_of_nonneg_right hn hpos]
    · linarith
  | succ n ih =>
    rcases le_or_gt (a.tangent e.toRat x).value 0 with hneg | hpos
    · refine (settles_of_near hx hs h (abs_le.mpr ⟨?_, ?_⟩)).mono (by omega)
      · linarith
      · linarith
    · refine settles_succ hx hs h fun next ρ hnext hfollows _ ↦ ?_
      have h' := h.next hs hfollows
      have hgrown := h.odds_next hs hfollows hpos hlack ho hodds
      have hlack' := h.lack_next hs hfollows hpos hlack
      rw [← hnext] at hgrown hlack' h'
      exact ih h' hlack' (by unfold growOdds; positivity) hn hgrown (h'.span_pos hs) h'.value_ge

/-- While the value is more than nine tenths of the span, each step divides the share of the
coefficient by three; after that the odds are one to nine at least, and grow in twelve steps. -/
theorem settles_of_steep (n : ℕ) (h : a.Basin e.toRat x)
    (hlack : 0 ≤ (a.tangent e.toRat x).lack)
    (hsteep : (a.tangent e.toRat x).pull * (a.tangent e.toRat x).room ≤
      9 / 2 * 3 ^ n * ((a.tangent e.toRat x).reach * (a.tangent e.toRat x).size)) :
    a.Settles y (24 + n) e := by
  have hladder : 7 / 3 ≤ growOdds^[12] (1 / 9) := by
    norm_num [growOdds, Function.iterate_succ_apply]
  induction n generalizing e with
  | zero =>
    have ht := h.regular hs
    have hturn := mul_pos ht.pull_pos ht.reach_pos
    refine settles_of_odds hx hs 12 h hlack (by norm_num) hladder ?_
    simp only [Tangent.value, Tangent.span]
    linarith
  | succ n ih =>
    rcases le_or_gt (1 / 9 * (a.tangent e.toRat x).value)
      ((a.tangent e.toRat x).span - (a.tangent e.toRat x).value) with hodds | hlong
    · exact (settles_of_odds hx hs 12 h hlack (by norm_num) hladder hodds).mono (by omega)
    · refine settles_succ hx hs h fun next ρ hnext hfollows _ ↦ ?_
      have hspan := h.span_pos hs
      have hpos : 0 < (a.tangent e.toRat x).value := by linarith
      have h' := h.next hs hfollows
      have hlack' := h.lack_next hs hfollows hpos hlack
      have hcube := h.three_le_cube hs hfollows hpos (by linarith)
      have hsteep' := h.steep_next hs hfollows hpos (by norm_num) hcube
        (by positivity : 0 ≤ 9 / 2 * (3 : ℚ) ^ n) (by rw [pow_succ] at hsteep; linarith)
      rw [← hnext] at h' hlack' hsteep'
      exact ih h' hlack' hsteep'

end Run

end AmpGamma

end ConcentratedPool
