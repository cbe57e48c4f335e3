import ConcentratedPool.Proofs.DecimalRounding
import ConcentratedPool.Proofs.LedgerSolvency
import ConcentratedPool.Proofs.PromotionLine

/-!
# Calls of governance, all or nothing

Governance changes records in place. An `InPlace` procedure reads and assigns the fields of a record
one after the other, and what it has assigned before it throws stays assigned, so that a record can
be left half changed. `PoolParams.updateInPlace`, `PoolState.promoteInPlace` and
`PoolState.stopInPlace` are the three calls of governance in that form. Each checks everything
before it assigns anything, and so carries out the update, the start and the stop of a pool, all or
nothing (`InPlace.CarriesOut`).

When these succeed is known exactly. An update is accepted where every field given is in its range
and the fees are in order once merged (`PoolParams.update_eq_ok`); a stop while a promotion lasts
(`Promotion.stop_eq_ok`); a start under the limits of `Promotion.MayStart`
(`Promotion.start_eq_ok_iff_mayStart`). These limits are about a quotient by the parameters in
force, which are positive in every pool that can be reached. `PoolState.governance_exact` is the
three together.
-/

set_option autoImplicit false
set_option relaxedAutoImplicit false

namespace ConcentratedPool

/-! ### Records that are changed in place -/

/-- A procedure on a record of type `σ`, which reads and assigns fields one after the other. Where it
throws it stops, and what it has assigned until then stays assigned. -/
abbrev InPlace (σ α : Type) := ExceptT Fault (StateM σ) α

namespace InPlace

variable {σ α β : Type}

/-- How a procedure ends on a record, and the record that it leaves behind. -/
def call (m : InPlace σ α) (s : σ) : Except Fault α × σ := (m.run.run s : Id _).run

/-- Assigns to a field where a value is given. -/
def assignGiven (value : Option α) (set : σ → α → σ) : InPlace σ Unit :=
  match value with
  | none => pure ()
  | some v => modify fun s ↦ set s v

/-- A procedure that carries out a checked computation of a part of a record, all or nothing: where
there is a value, it is put in the record, and else the procedure throws the same fault and the
record stays as it was. -/
def CarriesOut (m : InPlace σ Unit) (s : σ) (x : Except Fault β) (put : β → σ) : Prop :=
  m.call s = match x with
    | .ok value => (.ok (), put value)
    | .error fault => (.error fault, s)

namespace CarriesOut

variable {s : σ} {put : β → σ}

/-- Where there is a value, the procedure succeeds and puts it in the record. -/
theorem call_eq_of_ok {m : InPlace σ Unit} {x : Except Fault β} {value : β}
    (h : m.CarriesOut s x put) (hx : x = .ok value) : m.call s = (.ok (), put value) := by
  subst hx
  exact h

/-- Where there is none, the procedure throws and leaves the record as it was. -/
theorem call_eq_of_error {m : InPlace σ Unit} {x : Except Fault β} {fault : Fault}
    (h : m.CarriesOut s x put) (hx : x = .error fault) : m.call s = (.error fault, s) := by
  subst hx
  exact h

/-- A look at the record changes nothing. -/
theorem read {k : σ → InPlace σ Unit} {x : Except Fault β} (h : (k s).CarriesOut s x put) :
    ((get : InPlace σ σ) >>= k).CarriesOut s x put :=
  h

/-- A computation that both have to pass, and that looks at no record. -/
theorem check {x : Except Fault α} {k : α → InPlace σ Unit} {f : α → Except Fault β}
    (h : ∀ a, (k a).CarriesOut s (f a) put) :
    ((liftM x : InPlace σ α) >>= k).CarriesOut s (x >>= f) put := by
  cases x with
  | error fault => rfl
  | ok a => exact h a

/-- A condition under which both refuse. -/
theorem refuse {c : Prop} [Decidable c] {fault : Fault} {k : PUnit → InPlace σ Unit}
    {f : PUnit → Except Fault β} {m : InPlace σ Unit} {x : Except Fault β}
    (h : m.CarriesOut s x put) :
    (if c then (throw fault >>= k) else m).CarriesOut s (if c then (throw fault >>= f) else x)
      put := by
  by_cases hc : c
  · rw [if_pos hc, if_pos hc]
    rfl
  · rw [if_neg hc, if_neg hc]
    exact h

/-- What is left to do when all checks are passed. -/
theorem assign {m : InPlace σ Unit} {value : β} (h : m.call s = (.ok (), put value)) :
    m.CarriesOut s (pure value) put :=
  h

end CarriesOut

end InPlace

/-! ### The update of the parameters -/

namespace PoolParams

/-- Assigns the merged fees, and the other fields that are given. -/
def assignInPlace (mid out : Decimal) (u : ParamUpdate) : InPlace PoolParams Unit := do
  modify fun p ↦ { p with fees.mid := mid }
  modify fun p ↦ { p with fees.out := out }
  InPlace.assignGiven u.feeGamma fun p v ↦ { p with fees.gamma := v }
  InPlace.assignGiven u.repegThreshold fun p v ↦ { p with repegThreshold := v }
  InPlace.assignGiven u.minScaleDelta fun p v ↦ { p with minScaleDelta := v }
  InPlace.assignGiven u.halfTime fun p v ↦ { p with halfTime := v }

/-- Updates the parameters in place. -/
def updateInPlace (u : ParamUpdate) : InPlace PoolParams Unit := do
  let mid := u.midFee.getD (← get).fees.mid
  let out := u.outFee.getD (← get).fees.out
  checkGiven "mid_fee" u.midFee Limits.minFee Limits.maxFee
  checkGiven "out_fee" u.outFee Limits.minFee Limits.maxFee
  if out < mid then
    throw (.parameter "out_fee" out.render s!"out_fee >= mid_fee ({mid.render})")
  checkGiven "fee_gamma" u.feeGamma Limits.minFeeGamma Limits.maxFeeGamma
  checkGiven "repeg_profit_threshold" u.repegThreshold Limits.minRepegThreshold
    Limits.maxRepegThreshold
  checkGiven "min_price_scale_delta" u.minScaleDelta Limits.minScaleDelta Limits.maxScaleDelta
  if let some t := u.halfTime then
    checkIntRange "ma_half_time" t Limits.minHalfTime Limits.maxHalfTime
  assignInPlace mid out u

/-- The assignments replace exactly the fields that are given. -/
theorem call_assignInPlace (p : PoolParams) (u : ParamUpdate) :
    (assignInPlace (u.midFee.getD p.fees.mid) (u.outFee.getD p.fees.out) u).call p =
      (.ok (), p.merge u) := by
  obtain ⟨mid, out, gamma, repeg, delta, half⟩ := u
  cases gamma <;> cases repeg <;> cases delta <;> cases half <;> rfl

/-- The update in place carries out the update. -/
theorem carriesOut_updateInPlace (p : PoolParams) (u : ParamUpdate) :
    (updateInPlace u).CarriesOut p (p.update? u) id := by
  have hassign : (assignInPlace (u.midFee.getD p.fees.mid) (u.outFee.getD p.fees.out) u).CarriesOut
      p (pure (p.merge u)) id := .assign (call_assignInPlace p u)
  unfold updateInPlace update?
  dsimp only
  refine .read (.read (.check fun _ ↦ .check fun _ ↦ .refuse ?_))
  refine .check fun _ ↦ .check fun _ ↦ .check fun _ ↦ ?_
  cases u.halfTime with
  | none => exact hassign
  | some t => exact .check fun _ ↦ hassign

end PoolParams

/-! ### Promotions -/

/-- Parameters in range are divided without an overflow, be it by one unit. -/
theorem AmpGamma.InRange.raw_mul_scale_le {a : AmpGamma} (h : a.InRange) (k : CurveParameter) :
    (a.value k).raw * Decimal.scale ≤ Decimal.maxRaw :=
  calc (a.value k).raw * Decimal.scale ≤ k.largest.raw * Decimal.scale :=
        Nat.mul_le_mul_right _ (h.value_le k)
    _ ≤ Decimal.maxRaw := by cases k <;> decide

namespace Promotion

variable {p q : Promotion} {now : ℤ}

/-- A change is moderate exactly if the quotient, rounded down to 18 places, is within a tenth of
one. Assumes: a quotient by one unit would still be in range. -/
theorem moderate_iff {current next : Decimal}
    (hnext : next.raw * Decimal.scale ≤ Decimal.maxRaw) :
    Moderate current next ↔
      |((next.raw * Decimal.scale / current.raw : ℕ) : ℤ) - Decimal.scale| ≤
        Limits.maxPromotionChange.raw := by
  have hdistance : ∀ ratio : Decimal,
      ratio.distance .one ≤ Limits.maxPromotionChange ↔
        |(ratio.raw : ℤ) - Decimal.scale| ≤ Limits.maxPromotionChange.raw := by
    intro ratio
    rw [Decimal.le_def, ← Int.ofNat_le, Decimal.raw_distance]
    rfl
  constructor
  · rintro ⟨change, hchange, hle⟩
    simp only [relativeChange, bind_eq_ok, pure_eq_ok, Decimal.div_eq_ok] at hchange
    obtain ⟨ratio, ⟨-, hratio⟩, rfl⟩ := hchange
    rw [← hratio]
    exact (hdistance ratio).mp hle
  · intro hle
    have hcurrent : current.raw ≠ 0 := by
      intro hzero
      rw [hzero, Nat.div_zero] at hle
      exact absurd hle (by decide)
    let ratio : Decimal :=
      ⟨next.raw * Decimal.scale / current.raw, (Nat.div_le_self _ _).trans hnext⟩
    refine ⟨ratio.distance .one, ?_, (hdistance ratio).mpr hle⟩
    simp only [relativeChange, bind_eq_ok, pure_eq_ok, Decimal.div_eq_ok]
    exact ⟨ratio, ⟨hcurrent, rfl⟩, rfl⟩

/-- What a start of a promotion has to keep to: no promotion lasts, the last start is a day ago, the
window is a day at least, the target is in range, and neither parameter changes by more than a tenth
of the value in force. -/
structure MayStart (p : Promotion) (now : ℤ) (target : AmpGamma) (futureTime : ℤ) : Prop where
  rest : p.futureTime ≤ now
  gap : p.initialTime + Limits.minPromotionTime ≤ now
  window : now + Limits.minPromotionTime ≤ futureTime
  inRange : target.InRange
  change : ∀ k, |(((target.value k).raw * Decimal.scale / ((p.effective now).value k).raw : ℕ) : ℤ) -
    Decimal.scale| ≤ Limits.maxPromotionChange.raw

/-- A promotion is started exactly under its limits. -/
theorem start_eq_ok_iff_mayStart {amp gamma : Decimal} {futureTime : ℤ} :
    p.start? now amp gamma futureTime = .ok q ↔
      p.MayStart now ⟨amp, gamma⟩ futureTime ∧
        q = ⟨p.effective now, ⟨amp, gamma⟩, now, futureTime⟩ := by
  rw [start_eq_ok]
  constructor
  · rintro ⟨hrest, hgap, hwindow, hrange, hamp, hgamma, hq⟩
    refine ⟨⟨hrest, hgap, hwindow, hrange, fun k ↦ ?_⟩, hq⟩
    refine (moderate_iff (hrange.raw_mul_scale_le k)).mp ?_
    cases k
    · exact hamp
    · exact hgamma
  · rintro ⟨h, hq⟩
    have hmoderate := fun k ↦ (moderate_iff (h.inRange.raw_mul_scale_le k)).mpr (h.change k)
    exact ⟨h.rest, h.gap, h.window, h.inRange, hmoderate .amp, hmoderate .gamma, hq⟩

/-- The parameters in force are positive in a promotion in range. -/
theorem effective_pos (hp : p.InRange) (now : ℤ) (k : CurveParameter) :
    0 < ((p.effective now).value k).raw := by
  have hrange := inRange_effective hp now
  cases k
  · exact lt_of_lt_of_le (by decide) hrange.min_le_amp
  · exact lt_of_lt_of_le (by decide) hrange.min_le_gamma

end Promotion

namespace PoolState

/-- Starts a promotion in place. -/
def promoteInPlace (now : ℤ) (amp gamma : Decimal) (futureTime : ℤ) : InPlace PoolState Unit := do
  if (← get).promotion.isActive now then throw (.promotion .inProgress)
  if now < (← get).promotion.initialTime + Limits.minPromotionTime then
    throw (.promotion (.tooEarly Limits.minPromotionTime))
  if futureTime < now + Limits.minPromotionTime then
    throw (.promotion (.windowTooShort Limits.minPromotionTime))
  let next ← AmpGamma.new amp gamma
  let current := (← get).promotion.effective now
  let ampChange ← Promotion.relativeChange current.amp next.amp
  if Limits.maxPromotionChange < ampChange then
    throw (.promotion (.amplificationJump ampChange Limits.maxPromotionChange))
  let gammaChange ← Promotion.relativeChange current.gamma next.gamma
  if Limits.maxPromotionChange < gammaChange then
    throw (.promotion (.gammaJump gammaChange Limits.maxPromotionChange))
  modify fun s ↦ { s with promotion.initial := current }
  modify fun s ↦ { s with promotion.initialTime := now }
  modify fun s ↦ { s with promotion.future := next }
  modify fun s ↦ { s with promotion.futureTime := futureTime }

/-- Stops a promotion in place. -/
def stopInPlace (now : ℤ) : InPlace PoolState Unit := do
  if !(← get).promotion.isActive now then throw (.promotion .notInProgress)
  let current := (← get).promotion.effective now
  modify fun s ↦ { s with promotion.initial := current }
  modify fun s ↦ { s with promotion.future := current }
  modify fun s ↦ { s with promotion.futureTime := now }

/-- The start in place carries out the start of a promotion. -/
theorem carriesOut_promoteInPlace (s : PoolState) (now : ℤ) (amp gamma : Decimal)
    (futureTime : ℤ) :
    (promoteInPlace now amp gamma futureTime).CarriesOut s
      (s.promotion.start? now amp gamma futureTime) fun q ↦ { s with promotion := q } := by
  unfold promoteInPlace Promotion.start?
  dsimp only
  refine .read (.refuse (.read (.refuse (.refuse (.check fun next ↦ .read ?_)))))
  exact .check fun _ ↦ .refuse (.check fun _ ↦ .refuse (.assign rfl))

/-- The stop in place carries out the stop of a promotion. -/
theorem carriesOut_stopInPlace (s : PoolState) (now : ℤ) :
    (stopInPlace now).CarriesOut s (s.promotion.stop? now) fun q ↦ { s with promotion := q } := by
  unfold stopInPlace Promotion.stop?
  dsimp only
  exact .read (.refuse (.read (.assign rfl)))

/-- The calls of governance succeed exactly under their conditions, with a known result, and in place
they do all of it or nothing.

An update of any parameters is accepted if and only if each field given is in its range and the
merged fees are in order, and then it replaces exactly the fields given. In every state `s` that a
new pool reaches, a promotion is started if and only if it keeps to `Promotion.MayStart`, where the
parameters in force that are divided by are positive, and one is stopped if and only if it lasts. -/
theorem governance_exact {sources : List AssetSource} {initial : InitialParams} {created : ℤ}
    {token : String} {pool : Pool} (hcreate : Pool.create sources initial created token = .ok pool)
    (calls : List Call) :
    let s := ((Ledger.ofPool pool).run calls).pool.state
    (∀ (p : PoolParams) (u : ParamUpdate),
      (∀ q, p.update? u = .ok q ↔ p.Checked u ∧ q = p.merge u) ∧
      (PoolParams.updateInPlace u).CarriesOut p (p.update? u) id) ∧
    (∀ now amp gamma futureTime,
      (∀ k, 0 < ((s.promotion.effective now).value k).raw) ∧
      (∀ q, s.promotion.start? now amp gamma futureTime = .ok q ↔
        s.promotion.MayStart now ⟨amp, gamma⟩ futureTime ∧
          q = ⟨s.promotion.effective now, ⟨amp, gamma⟩, now, futureTime⟩) ∧
      (promoteInPlace now amp gamma futureTime).CarriesOut s
        (s.promotion.start? now amp gamma futureTime) fun q ↦ { s with promotion := q }) ∧
    ∀ now,
      (∀ q, s.promotion.stop? now = .ok q ↔ now < s.promotion.futureTime ∧
        q = ⟨s.promotion.effective now, s.promotion.effective now, s.promotion.initialTime, now⟩) ∧
      (stopInPlace now).CarriesOut s (s.promotion.stop? now) fun q ↦ { s with promotion := q } := by
  intro s
  have hrange : s.promotion.InRange :=
    (Ledger.wellFormed_run (Ledger.wellFormed_ofPool hcreate) calls).pool.promotion
  refine ⟨fun p u ↦ ?_, fun now amp gamma futureTime ↦ ⟨?_, fun q ↦ ?_, ?_⟩, fun now ↦ ?_⟩
  · exact ⟨fun q ↦ PoolParams.update_eq_ok, PoolParams.carriesOut_updateInPlace p u⟩
  · exact Promotion.effective_pos hrange now
  · exact Promotion.start_eq_ok_iff_mayStart
  · exact carriesOut_promoteInPlace s now amp gamma futureTime
  · exact ⟨fun q ↦ Promotion.stop_eq_ok, carriesOut_stopInPlace s now⟩

/-- A promotion of the usual pool in two days, the amplification up by a tenth. -/
def usualPromotion : PromotionRequest where
  amp := ⟨44_000_000_000_000_000_000, by decide⟩
  gamma := ⟨155_000_000_000_000, by decide⟩
  futureTime := 259_200

/-- The parameters of the usual pool when half of that promotion is over. -/
def usualHalfway : AmpGamma where
  amp := ⟨42_000_000_000_000_000_000, by decide⟩
  gamma := ⟨150_000_000_000_000, by decide⟩

/-- The usual pool is promoted after a day. Another day later, a second promotion is refused and
leaves everything as it was, and a stop freezes the parameters halfway. -/
theorem governance_exact_usual :
    Pool.create [.known ⟨"uusd", 6⟩, .known ⟨"uluna", 6⟩] Pool.usualParams 0 "shares" =
        .ok Pool.usual ∧
      let s := ((Ledger.ofPool Pool.usual).run [.promote usualPromotion 86_400]).pool.state
      s.promotion.effective 172_800 = usualHalfway ∧
      (promoteInPlace 172_800 usualPromotion.amp usualPromotion.gamma 432_000).call s =
        (.error (.promotion .inProgress), s) ∧
      (stopInPlace 172_800).call s =
        (.ok (), { s with promotion := ⟨usualHalfway, usualHalfway, 86_400, 172_800⟩ }) := by
  refine ⟨Pool.create_usual, ?_⟩
  intro s
  obtain ⟨-, hpromote, hstop⟩ := governance_exact Pool.create_usual [.promote usualPromotion 86_400]
  have hhalfway : s.promotion.effective 172_800 = usualHalfway := by decide +kernel
  have hrefused : s.promotion.start? 172_800 usualPromotion.amp usualPromotion.gamma 432_000 =
      .error (.promotion .inProgress) := by decide +kernel
  have hstopped := ((hstop 172_800).1 ⟨usualHalfway, usualHalfway, 86_400, 172_800⟩).mpr
    ⟨by decide +kernel, by decide +kernel⟩
  refine ⟨hhalfway, ?_, ?_⟩
  · exact (hpromote _ _ _ _).2.2.call_eq_of_error hrefused
  · exact (hstop _).2.call_eq_of_ok hstopped

end PoolState

end ConcentratedPool
