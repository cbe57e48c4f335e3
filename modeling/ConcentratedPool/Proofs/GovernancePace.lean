import ConcentratedPool.Proofs.LedgerSolvency
import ConcentratedPool.Proofs.PromotionLine

/-!
# The pace of governance

Governance can start promotions and stop them, at whatever times, and still moves no curve parameter
by more than a tenth in a day. `Promotion.GovernEnds` lists what one call can do. A promotion that
is stopped keeps its start, so any two starts are a day apart; a day therefore holds the tail of one
promotion and the head of one other at most, each possibly cut short by a stop. `Promotion.Reach` is
that, kept by each call (`Promotion.Reach.govern`) and so by a run of calls within a day
(`Promotion.Reach.governed`). What the two lines can change is bounded in
`Promotion.value_bounds_of_reach`.

`Pool.promotionAt` is the promotion in force at a time, after all calls until then, and
`Pool.pace_of_governance` the bound for every pool and every sequence of calls.
-/

set_option autoImplicit false
set_option relaxedAutoImplicit false

namespace ConcentratedPool

/-- A call of governance on the curve parameters. -/
inductive Governance where
  | promote (request : PromotionRequest)
  | stop

/-- The call to a pool at a time. -/
def Governance.toCall (now : ℤ) : Governance → Call
  | promote request => .promote request now
  | stop => .stopPromotion now

namespace Promotion

variable {p q r : Promotion} {now t u : ℤ}

/-! ### One call -/

/-- The promotion after a call of governance, which is the same one if the call is refused. -/
def govern (p : Promotion) (now : ℤ) : Governance → Promotion
  | .promote request =>
    (p.start? now request.amp request.gamma request.futureTime).toOption.getD p
  | .stop => (p.stop? now).toOption.getD p

/-- What a call of governance can do. -/
inductive GovernEnds (p : Promotion) (now : ℤ) : Promotion → Prop
  | kept : GovernEnds p now p
  | started {q : Promotion} (hrest : p.futureTime ≤ now)
      (hgap : p.initialTime + Limits.minPromotionTime ≤ now) (hinitial : q.initial = p.effective now)
      (hstart : q.initialTime = now) (hlong : now + Limits.minPromotionTime ≤ q.futureTime)
      (hnear : ∀ k, (q.initial.value k).Near (q.future.value k)) : GovernEnds p now q
  | stopped (hactive : now < p.futureTime) :
      GovernEnds p now ⟨p.effective now, p.effective now, p.initialTime, now⟩

/-- Every call of governance does one of these. -/
theorem governEnds (p : Promotion) (now : ℤ) (call : Governance) :
    GovernEnds p now (p.govern now call) := by
  cases call with
  | promote request =>
    simp only [govern]
    cases hstart : p.start? now request.amp request.gamma request.futureTime with
    | error fault => exact .kept
    | ok q =>
      obtain ⟨hrest, hgap, hinitial, hnow, hlong, hnear⟩ := of_start hstart
      exact .started hrest hgap hinitial hnow hlong hnear
  | stop =>
    simp only [govern]
    cases hstop : p.stop? now with
    | error fault => exact .kept
    | ok q =>
      obtain ⟨hactive, rfl⟩ := stop_eq_ok.mp hstop
      exact .stopped hactive

/-- No call changes the parameters in force at its time. -/
theorem GovernEnds.effective_eq (h : GovernEnds p now q) : q.effective now = p.effective now := by
  cases h with
  | kept => rfl
  | started _ _ hinitial hstart hlong _ =>
    unfold Limits.minPromotionTime at hlong
    rw [effective, if_neg (by omega), if_pos hstart.ge, hinitial]
  | stopped _ =>
    rw [effective, if_pos le_rfl]

/-- A call leaves a promotion within the limits. -/
theorem Tempered.govern (hp : p.Tempered t) (ht : t ≤ now) (call : Governance) :
    (p.govern now call).Tempered now := by
  have hstarted : p.initialTime ≤ now := hp.started.trans ht
  generalize p.govern now call = q, p.governEnds now call = h
  cases h with
  | kept => exact ⟨hstarted, hp.ordered, hp.pace⟩
  | started _ _ _ hstart hlong hnear =>
    rw [← hstart] at hlong
    refine ⟨hstart.le, ?_, .inr ⟨hlong, hnear⟩⟩
    unfold Limits.minPromotionTime at hlong
    omega
  | stopped _ => exact ⟨hstarted, hstarted, .inl rfl⟩

/-! ### Many calls -/

/-- The promotion after many calls with their times. -/
def governed (p : Promotion) (calls : List (ℤ × Governance)) : Promotion :=
  calls.foldl (fun q call ↦ q.govern call.1 call.2) p

/-- Calls in the order of their times, none of them before a time. -/
def InOrder (calls : List (ℤ × Governance)) (t : ℤ) : Prop :=
  (t :: calls.map Prod.fst).Pairwise (· ≤ ·)

/-- Calls in order leave a promotion within the limits, at the time of the last one. -/
theorem Tempered.governed {calls : List (ℤ × Governance)} (hp : p.Tempered t)
    (horder : InOrder calls t) :
    ∃ last, (last = t ∨ ∃ call ∈ calls, last = call.1) ∧ (p.governed calls).Tempered last := by
  induction calls generalizing p t with
  | nil => exact ⟨t, .inl rfl, hp⟩
  | cons call calls ih =>
    obtain ⟨hfirst, hrest⟩ := List.pairwise_cons.mp horder
    obtain ⟨last, hlast, htempered⟩ :=
      ih (hp.govern (hfirst _ (List.mem_cons_self ..)) call.2) hrest
    refine ⟨last, .inr ?_, htempered⟩
    rcases hlast with rfl | ⟨other, hother, rfl⟩
    · exact ⟨call, List.mem_cons_self .., rfl⟩
    · exact ⟨other, List.mem_cons_of_mem _ hother, rfl⟩

/-! ### A day -/

/-- From `t` on `q` is at values that `p` has had since a time: it is `p`, or what a stop has made
of it. -/
structure Follows (q p : Promotion) (since t : ℤ) : Prop where
  start_eq : q.initialTime = p.initialTime
  value : ∀ t' ≥ t, ∃ u, since ≤ u ∧ u ≤ t' ∧ q.effective t' = p.effective u

variable {since : ℤ}

/-- Every promotion follows itself. -/
theorem Follows.refl (p : Promotion) (h : since ≤ t) : p.Follows p since t :=
  ⟨rfl, fun t' ht' ↦ ⟨t', h.trans ht', le_rfl, rfl⟩⟩

theorem Follows.later (h : q.Follows p since t) (ht : t ≤ now) : q.Follows p since now :=
  ⟨h.start_eq, fun t' ht' ↦ h.value t' (ht.trans ht')⟩

/-- A promotion that is stopped still follows the one that it followed. -/
theorem Follows.stopped (h : q.Follows p since t) (ht : t ≤ now) :
    Follows ⟨q.effective now, q.effective now, q.initialTime, now⟩ p since now := by
  refine ⟨h.start_eq, fun t' ht' ↦ ?_⟩
  obtain ⟨u, hsince, hu, hvalue⟩ := h.value now ht
  refine ⟨u, hsince, hu.trans ht', ?_⟩
  rw [← hvalue, effective, if_pos ht']

/-- What calls within a day after `t` can make of the promotion `p` that is in force at `t`: it goes
on or is stopped, or another one has been started since then, from a value that `p` has had, and
goes on or is stopped itself. -/
inductive Reach (p : Promotion) (t : ℤ) (q : Promotion) (now : ℤ) : Prop
  | carried (hfollows : q.Follows p t now)
  | restarted (r : Promotion) (u : ℤ) (hu : t ≤ u) (hstart : u ≤ r.initialTime)
      (hlater : t < r.initialTime) (hgap : p.initialTime + Limits.minPromotionTime ≤ r.initialTime)
      (hinitial : r.initial = p.effective u)
      (hlong : r.initialTime + Limits.minPromotionTime ≤ r.futureTime)
      (hnear : ∀ k, (r.initial.value k).Near (r.future.value k))
      (hfollows : q.Follows r r.initialTime now)

/-- A call within the day keeps to that. There is no second start, because it would be a day after
the first one. -/
theorem Reach.govern (h : p.Reach t q u) (hu : u ≤ now) (hlater : t < now)
    (hday : now ≤ t + Limits.minPromotionTime) (call : Governance) :
    p.Reach t (q.govern now call) now := by
  generalize q.govern now call = s, q.governEnds now call = hends
  cases h with
  | carried hfollows =>
    cases hends with
    | kept => exact .carried (hfollows.later hu)
    | started _ hgap hinitial hstart hlong hnear =>
      obtain ⟨v, htv, hvnow, hvalue⟩ := hfollows.value now hu
      rw [hfollows.start_eq] at hgap
      subst hstart
      exact .restarted s v htv hvnow hlater hgap (hinitial.trans hvalue) hlong hnear
        (Follows.refl s le_rfl)
    | stopped _ => exact .carried (hfollows.stopped hu)
  | restarted r v htv hvstart hafter hgap hinitial hlong hnear hfollows =>
    cases hends with
    | kept => exact .restarted r v htv hvstart hafter hgap hinitial hlong hnear (hfollows.later hu)
    | started _ hgap' _ _ _ _ =>
      rw [hfollows.start_eq] at hgap'
      omega
    | stopped _ =>
      exact .restarted r v htv hvstart hafter hgap hinitial hlong hnear (hfollows.stopped hu)

theorem Reach.later (h : p.Reach t q u) (hu : u ≤ now) : p.Reach t q now := by
  cases h with
  | carried hfollows => exact .carried (hfollows.later hu)
  | restarted r v htv hvstart hafter hgap hinitial hlong hnear hfollows =>
    exact .restarted r v htv hvstart hafter hgap hinitial hlong hnear (hfollows.later hu)

/-- Calls within the day keep to that. -/
theorem Reach.governed {calls : List (ℤ × Governance)} (h : p.Reach t q u)
    (horder : InOrder calls u) (hu : u ≤ now) (hday : now ≤ t + Limits.minPromotionTime)
    (hcalls : ∀ call ∈ calls, t < call.1 ∧ call.1 ≤ now) : p.Reach t (q.governed calls) now := by
  induction calls generalizing q u with
  | nil => exact h.later hu
  | cons call calls ih =>
    obtain ⟨hfirst, hrest⟩ := List.pairwise_cons.mp horder
    obtain ⟨hlater, hnow⟩ := hcalls call (List.mem_cons_self ..)
    have hstep : p.Reach t (q.govern call.1 call.2) call.1 :=
      h.govern (hfirst _ (List.mem_cons_self ..)) hlater (hnow.trans hday) call.2
    exact ih hstep hrest hnow fun other hother ↦ hcalls other (List.mem_cons_of_mem _ hother)

/-- Within a day no parameter moves by more than a tenth, up to the roundings: two units of the
eighteenth place, and one relatively for each of the two promotions. -/
theorem value_bounds_of_reach (hp : p.Tempered t) (hrange : p.InRange) (h : p.Reach t q now)
    (hday : now ≤ t + Limits.minPromotionTime) (k : CurveParameter) :
    9 / 10 * (((p.effective t).value k).raw : ℚ) ≤ ((q.effective now).value k).raw + 2 ∧
      (((q.effective now).value k).raw : ℚ) ≤
        11 / 10 * (((p.effective t).value k).raw + 1) + 2 * (Decimal.ulp * k.largest.raw) := by
  have hulp := Decimal.ulp_nonneg
  have hlargest : ∀ a : AmpGamma, a.InRange →
      Decimal.ulp * ((a.value k).raw : ℚ) ≤ Decimal.ulp * k.largest.raw := fun a ha ↦
    mul_le_mul_of_nonneg_left (by exact_mod_cast ha.value_le k) hulp
  have holder := hlargest _ hrange.initial
  have hnonneg : 0 ≤ Decimal.ulp * (k.largest.raw : ℚ) := mul_nonneg hulp (Nat.cast_nonneg _)
  have hdayPos := Limits.day_pos
  cases h with
  | carried hfollows =>
    obtain ⟨u, htu, hunow, hvalue⟩ := hfollows.value now le_rfl
    have hspan : ((u - t : ℤ) : ℚ) + 0 ≤ Limits.day := by
      unfold Limits.day
      exact_mod_cast (by omega : u - t + 0 ≤ Limits.minPromotionTime)
    have hage : (0 : ℚ) ≤ (t - p.initialTime : ℤ) := by exact_mod_cast sub_nonneg.mpr hp.started
    obtain ⟨hupper, hlower⟩ := hp.carried k htu le_rfl hspan hage
    rw [zero_div] at hupper hlower
    rw [hvalue]
    constructor
    · linarith
    · linarith
  | restarted r u htu hustart _ hgap hinitial hlong hnear hfollows =>
    obtain ⟨u', hstart, hunow, hvalue⟩ := hfollows.value now le_rfl
    have hpassed : (0 : ℚ) ≤ (u' - r.initialTime : ℤ) := by exact_mod_cast sub_nonneg.mpr hstart
    have hspan : ((u - t : ℤ) : ℚ) + (u' - r.initialTime : ℤ) ≤ Limits.day := by
      unfold Limits.day
      exact_mod_cast (by omega : u - t + (u' - r.initialTime) ≤ Limits.minPromotionTime)
    have hage : ((u' - r.initialTime : ℤ) : ℚ) ≤ (t - p.initialTime : ℤ) := by
      exact_mod_cast (by omega)
    have hnewer := hlargest _ (inRange_effective hrange u)
    obtain ⟨hupper, hlower⟩ := hp.carried k htu hpassed hspan hage
    obtain ⟨hupper', hlower'⟩ := moved k hlong (hnear k) hstart
    rw [hinitial] at hupper' hlower'
    have hpart : 0 ≤ ((u' - r.initialTime : ℤ) : ℚ) / (10 * Limits.day) := by positivity
    rw [hvalue]
    constructor
    · linarith
    · linarith

/-- Calls in order until a later time are those until an earlier one and those in between. -/
theorem filter_le_eq_append {calls : List (ℤ × Governance)} (horder : InOrder calls now)
    (htu : t ≤ u) : calls.filter (·.1 ≤ u) =
      calls.filter (·.1 ≤ t) ++ calls.filter (fun call ↦ t < call.1 ∧ call.1 ≤ u) := by
  induction calls generalizing now with
  | nil => rfl
  | cons call calls ih =>
    obtain ⟨-, hrest⟩ := List.pairwise_cons.mp horder
    by_cases hearly : call.1 ≤ t
    · rw [List.filter_cons_of_pos (by simpa using hearly.trans htu),
        List.filter_cons_of_pos (by simpa using hearly), List.filter_cons_of_neg (by simp [hearly]),
        ih hrest, List.cons_append]
    · -- From here on every call is late.
      have hlate : ∀ other ∈ call :: calls, t < other.1 := by
        intro other hother
        rcases List.mem_cons.mp hother with rfl | hmem
        · exact not_le.mp hearly
        · have hfirst := (List.pairwise_cons.mp hrest).1 other.1 (List.mem_map_of_mem hmem)
          exact (not_le.mp hearly).trans_le hfirst
      have hnone : (call :: calls).filter (·.1 ≤ t) = [] := by
        refine List.filter_eq_nil_iff.mpr fun other hother ↦ ?_
        simpa using hlate other hother
      rw [hnone, List.nil_append]
      refine List.filter_congr fun other hother ↦ ?_
      simp [hlate other hother]

/-- The promotion in force at a time, after all calls until then. -/
def inForce (p : Promotion) (calls : List (ℤ × Governance)) (t : ℤ) : Promotion :=
  p.governed (calls.filter (·.1 ≤ t))

/-- Calls in order stay so where some are left out. -/
theorem InOrder.sublist {calls some : List (ℤ × Governance)} (h : InOrder calls t)
    (hsome : some.Sublist calls) : InOrder some t :=
  List.Pairwise.sublist ((hsome.map Prod.fst).cons_cons t) h

/-- The promotion that is in force at a time is within the limits then. -/
theorem Tempered.inForce {calls : List (ℤ × Governance)} (hp : p.Tempered t)
    (horder : InOrder calls t) (htu : t ≤ u) : (p.inForce calls u).Tempered u := by
  obtain ⟨last, hlast, htempered⟩ :=
    hp.governed (horder.sublist (List.filter_sublist (p := fun call ↦ call.1 ≤ u)))
  have hle : last ≤ u := by
    rcases hlast with rfl | ⟨call, hcall, rfl⟩
    · exact htu
    · simpa using (List.mem_filter.mp hcall).2
  exact ⟨htempered.started.trans hle, htempered.ordered, htempered.pace⟩

/-- What is in force within a day is in reach. -/
theorem reach_inForce {calls : List (ℤ × Governance)} (horder : InOrder calls now) (htu : t ≤ u)
    (hday : u ≤ t + Limits.minPromotionTime) :
    (p.inForce calls t).Reach t (p.inForce calls u) u := by
  have hsplit : p.inForce calls u =
      (p.inForce calls t).governed (calls.filter fun call ↦ t < call.1 ∧ call.1 ≤ u) := by
    unfold Promotion.inForce governed
    rw [filter_le_eq_append horder htu, List.foldl_append]
  have hbetween : ∀ call ∈ calls.filter (fun call ↦ t < call.1 ∧ call.1 ≤ u),
      t < call.1 ∧ call.1 ≤ u := by
    intro call hcall
    simpa using (List.mem_filter.mp hcall).2
  have horder' : InOrder (calls.filter fun call ↦ t < call.1 ∧ call.1 ≤ u) t := by
    refine List.pairwise_cons.mpr ⟨?_, ?_⟩
    · intro time htime
      obtain ⟨call, hcall, rfl⟩ := List.mem_map.mp htime
      exact (hbetween call hcall).1.le
    · exact (List.pairwise_cons.mp (horder.sublist List.filter_sublist)).2
  rw [hsplit]
  exact Reach.governed (.carried (Follows.refl _ le_rfl)) horder' htu hday hbetween

/-- Calls keep a promotion in range. -/
theorem InRange.governed (hp : p.InRange) (calls : List (ℤ × Governance)) :
    (p.governed calls).InRange := by
  induction calls generalizing p with
  | nil => exact hp
  | cons call calls ih =>
    refine ih ?_
    obtain ⟨time, call⟩ := call
    cases call with
    | promote request =>
      simp only [govern]
      cases hstart : p.start? time request.amp request.gamma request.futureTime with
      | error fault => exact hp
      | ok q => exact inRange_start hp hstart
    | stop =>
      simp only [govern]
      cases hstop : p.stop? time with
      | error fault => exact hp
      | ok q => exact inRange_stop hp hstop

end Promotion

/-! ### Pools -/

namespace Ledger

/-- The promotion of a ledger after a call of governance. -/
theorem promotion_step (l : Ledger) (now : ℤ) (call : Governance) :
    (l.step (call.toCall now)).pool.state.promotion = l.pool.state.promotion.govern now call := by
  cases call with
  | promote request =>
    simp only [Governance.toCall, step, apply, Pool.promote, Promotion.govern]
    cases l.pool.state.promotion.start? now request.amp request.gamma request.futureTime with
    | error fault => rfl
    | ok q => rfl
  | stop =>
    simp only [Governance.toCall, step, apply, Pool.stopPromotion, Promotion.govern]
    cases l.pool.state.promotion.stop? now with
    | error fault => rfl
    | ok q => rfl

/-- The ledger after calls of governance with their times. -/
def govern (l : Ledger) (calls : List (ℤ × Governance)) : Ledger :=
  l.run (calls.map fun call ↦ call.2.toCall call.1)

/-- The promotion of a ledger after calls of governance. -/
theorem promotion_govern (l : Ledger) (calls : List (ℤ × Governance)) :
    (l.govern calls).pool.state.promotion = l.pool.state.promotion.governed calls := by
  induction calls generalizing l with
  | nil => rfl
  | cons call calls ih =>
    have hstep := ih (l.step (call.2.toCall call.1))
    rw [promotion_step] at hstep
    exact hstep

end Ledger

namespace Pool

/-- The curve parameters in force at a time, in a pool that governance has called. -/
def effectiveAt (p : Pool) (calls : List (ℤ × Governance)) (t : ℤ) : AmpGamma :=
  ((Ledger.ofPool p).govern (calls.filter (·.1 ≤ t))).pool.state.promotion.effective t

/-- A new pool has a promotion at rest, which is within the limits and in range. -/
theorem tempered_of_create {sources : List AssetSource} {initial : InitialParams} {created : ℤ}
    {token : String} {p : Pool} (h : create sources initial created token = .ok p) :
    p.state.promotion.Tempered created ∧ p.state.promotion.InRange := by
  refine ⟨?_, (inRange_create h).1.promotion⟩
  simp only [create, refuse_eq_ok, bind_eq_ok, pure_eq_ok] at h
  obtain ⟨_, -, assets, -, -, params, -, shape, -, -, rfl⟩ := h
  exact ⟨le_rfl, le_rfl, .inl rfl⟩

/-- No curve parameter moves by more than a tenth within a day, up to the roundings. -/
theorem value_bounds_of_create {sources : List AssetSource} {initial : InitialParams}
    {created : ℤ} {token : String} {p : Pool} (h : create sources initial created token = .ok p)
    {calls : List (ℤ × Governance)} (horder : Promotion.InOrder calls created) {t u : ℤ}
    (ht : created ≤ t) (htu : t ≤ u) (hday : u ≤ t + Limits.minPromotionTime)
    (k : CurveParameter) :
    9 / 10 * (((p.effectiveAt calls t).value k).raw : ℚ) ≤
        ((p.effectiveAt calls u).value k).raw + 2 ∧
      (((p.effectiveAt calls u).value k).raw : ℚ) ≤
        11 / 10 * (((p.effectiveAt calls t).value k).raw + 1) +
          2 * (Decimal.ulp * k.largest.raw) := by
  obtain ⟨htempered, hrange⟩ := tempered_of_create h
  unfold effectiveAt
  rw [Ledger.promotion_govern, Ledger.promotion_govern]
  exact Promotion.value_bounds_of_reach (htempered.inForce horder ht) (hrange.governed _)
    (Promotion.reach_inForce horder htu hday) hday k

/-- The roundings of a day are worth less than `10⁻¹²` for the amplification and less than `10⁻¹⁷`
for the concentration. -/
theorem toRat_bounds {k : CurveParameter} {slack : ℚ} {a b : AmpGamma}
    (hslack : 2 + 2 * (Decimal.ulp * (k.largest.raw : ℚ)) ≤ slack * Decimal.scale)
    (hlower : 9 / 10 * ((a.value k).raw : ℚ) ≤ (b.value k).raw + 2)
    (hupper : ((b.value k).raw : ℚ) ≤
      11 / 10 * ((a.value k).raw + 1) + 2 * (Decimal.ulp * k.largest.raw)) :
    9 / 10 * (a.value k).toRat - slack ≤ (b.value k).toRat ∧
      (b.value k).toRat ≤ 11 / 10 * (a.value k).toRat + slack := by
  have hscale := Decimal.cast_scale_pos
  have hulp : 0 ≤ Decimal.ulp * (k.largest.raw : ℚ) :=
    mul_nonneg Decimal.ulp_nonneg (Nat.cast_nonneg _)
  unfold Decimal.toRat
  constructor
  · rw [sub_le_iff_le_add, ← mul_div_assoc, div_le_iff₀ hscale, add_mul,
      div_mul_cancel₀ _ hscale.ne']
    linarith
  · rw [← mul_div_assoc, div_le_iff₀ hscale, add_mul, div_mul_cancel₀ _ hscale.ne']
    linarith

/-- The pace of governance. Whatever calls are made from the creation of a pool on, in whatever
order, a promotion never ends before its start; no call that is carried out changes the curve
parameters in force at its time; and within a day the amplification and the concentration move by a
tenth at most, up to the roundings. -/
theorem pace_of_governance {sources : List AssetSource} {initial : InitialParams} {created : ℤ}
    {token : String} {p : Pool} (h : create sources initial created token = .ok p)
    {calls : List (ℤ × Governance)} (horder : Promotion.InOrder calls created) :
    (∀ before, before <+: calls →
      ((Ledger.ofPool p).govern before).pool.state.promotion.initialTime ≤
        ((Ledger.ofPool p).govern before).pool.state.promotion.futureTime) ∧
    (∀ (l : Ledger) now (call : Governance) receipt next,
      l.apply (call.toCall now) = .ok (receipt, next) →
      next.pool.state.promotion.effective now = l.pool.state.promotion.effective now) ∧
    ∀ t₁ t₂, created ≤ t₁ → t₁ ≤ t₂ → t₂ ≤ t₁ + Limits.minPromotionTime →
      (9 / 10 * (p.effectiveAt calls t₁).amp.toRat - 1 / 10 ^ 12 ≤
          (p.effectiveAt calls t₂).amp.toRat ∧
        (p.effectiveAt calls t₂).amp.toRat ≤
          11 / 10 * (p.effectiveAt calls t₁).amp.toRat + 1 / 10 ^ 12) ∧
      (9 / 10 * (p.effectiveAt calls t₁).gamma.toRat - 1 / 10 ^ 17 ≤
          (p.effectiveAt calls t₂).gamma.toRat ∧
        (p.effectiveAt calls t₂).gamma.toRat ≤
          11 / 10 * (p.effectiveAt calls t₁).gamma.toRat + 1 / 10 ^ 17) := by
  refine ⟨fun before hbefore ↦ ?_, fun l now call receipt next happly ↦ ?_,
    fun t₁ t₂ ht htu hday ↦ ?_⟩
  · obtain ⟨_, -, htempered⟩ :=
      (tempered_of_create h).1.governed (horder.sublist hbefore.sublist)
    rw [Ledger.promotion_govern]
    exact htempered.ordered
  · have hstep : l.step (call.toCall now) = next := by
      unfold Ledger.step
      rw [happly]
    rw [← hstep, Ledger.promotion_step]
    exact (l.pool.state.promotion.governEnds now call).effective_eq
  · constructor
    · obtain ⟨hlower, hupper⟩ := value_bounds_of_create h horder ht htu hday .amp
      exact toRat_bounds (k := .amp) (by
        norm_num [Decimal.ulp, Decimal.scale, CurveParameter.largest, Limits.maxAmplification])
        hlower hupper
    · obtain ⟨hlower, hupper⟩ := value_bounds_of_create h horder ht htu hday .gamma
      exact toRat_bounds (k := .gamma) (by
        norm_num [Decimal.ulp, Decimal.scale, CurveParameter.largest, Limits.maxGamma])
        hlower hupper

/-- Three calls to the usual pool: a promotion up by a tenth in two days, a stop after half a day of
it, and the next promotion, down again, as early as the limits allow. -/
def usualCalls : List (ℤ × Governance) :=
  [(86_400, .promote ⟨⟨44 * Decimal.scale, by decide⟩, ⟨159_500_000_000_000, by decide⟩, 259_200⟩),
    (129_600, .stop),
    (172_800, .promote ⟨⟨40 * Decimal.scale, by decide⟩, ⟨136_000_000_000_000, by decide⟩, 259_200⟩)]

/-- All three calls are carried out. A day that begins before the stop and ends after the second
start keeps to the bounds. -/
theorem pace_of_governance_usual :
    create [.known ⟨"uusd", 6⟩, .known ⟨"uluna", 6⟩] usualParams 0 "shares" = .ok usual ∧
      Promotion.InOrder usualCalls 0 ∧
      (usual.effectiveAt usualCalls 108_000).amp.raw = 40_500_000_000_000_000_000 ∧
      (usual.effectiveAt usualCalls 129_600).amp.raw = 41_000_000_000_000_000_000 ∧
      (usual.effectiveAt usualCalls 194_400).amp.raw = 40_750_000_000_000_000_000 ∧
      9 / 10 * (usual.effectiveAt usualCalls 108_000).gamma.toRat - 1 / 10 ^ 17 ≤
        (usual.effectiveAt usualCalls 194_400).gamma.toRat := by
  have horder : Promotion.InOrder usualCalls 0 := by
    unfold Promotion.InOrder usualCalls
    decide
  obtain ⟨-, -, hpace⟩ := pace_of_governance create_usual horder
  have hday := hpace 108_000 194_400 (by decide) (by decide) (by decide)
  exact ⟨create_usual, horder, by decide +kernel, by decide +kernel, by decide +kernel, hday.2.1⟩

end Pool

end ConcentratedPool
